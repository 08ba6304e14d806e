import Diglot.Proofs.Host.Forms
import Diglot.Proofs.Host.Reading

/-!
# Tokens of patterns that are read

The tokens of a pattern that the host reads are not in any order: every group that is opened is
closed (`closesAll_of_foldlM`), and no quantifier follows what cannot be repeated
(`isChain_precedes`).
-/

namespace Diglot.Host

/-- Whether the groups that tokens open and close match, with `depth` groups open before them. -/
def closesAll : (depth : Nat) → List Token → Bool
  | depth, [] => depth == 0
  | depth, t :: ts =>
    match t with
    | .groupOpen _ => closesAll (depth + 1) ts
    | .groupClose => depth != 0 && closesAll (depth - 1) ts
    | _ => closesAll depth ts

theorem closesAll_ordinary {front ts : List Token} (h : ∀ t ∈ front, t.isOrdinary)
    (depth : Nat) : closesAll depth (front ++ ts) = closesAll depth ts := by
  induction front with
  | nil => rfl
  | cons t front ih =>
    obtain ⟨ht, hf⟩ := List.forall_mem_cons.1 h
    cases t with
    | groupOpen | groupClose | numbered => cases ht
    | _ => exact ih hf

theorem captureNames_ordinary {t : Token} (ht : t.isOrdinary) (ts : List Token) :
    captureNames (t :: ts) = captureNames ts := by
  cases t with
  | groupOpen => cases ht
  | _ => rfl

theorem captureNames_opens {o : Opener} (hc : ∀ name, o ≠ .capture name) (ts : List Token) :
    captureNames (.groupOpen o :: ts) = captureNames ts := by
  cases o with
  | capture name => exact absurd rfl (hc name)
  | _ => rfl

variable {g : Grammar} {names : List (Option (List Char))} {r r' s : Reading} {t u : Token}

namespace Reading

/-- Groups neither open nor close in a class, nothing is referred to there and nothing repeated. -/
theorem classes_eq_nil (ht : t.isOrdinary = false ∨ t.isQuantifier)
    (hs : r.step g names t = some s) : r.classes = [] := by
  cases hclasses : r.classes with
  | nil => rfl
  | cons c cs =>
    rw [step, hclasses] at hs
    cases t with
    | groupOpen | groupClose | numbered | quantifier => cases hs
    | _ => simp [Token.isOrdinary, Token.isQuantifier] at ht

/-! ## Groups -/

/-- Only the brackets of groups change which groups are open. -/
theorem exists_of_step (ho : ∀ o, t ≠ .groupOpen o) (hc : t ≠ .groupClose)
    (hs : r.step g names t = some s) : ∃ classes group,
      s = { r with classes, group } ∧ classes.length = t.classDepth r.classes.length := by
  cases hclasses : r.classes with
  | nil =>
    rw [step_of_classes_eq_nil hclasses] at hs
    have hstill : ∀ group, s = { r with group } → t.classDepth 0 = 0 → ∃ classes group,
        s = { r with classes, group } ∧ classes.length = t.classDepth 0 := by
      intro group hgroup hd
      exact ⟨r.classes, group, hgroup, by rw [hclasses, hd]; rfl⟩
    cases t with
    | code | set | any | edge | bar =>
      cases hs
      exact hstill _ rfl rfl
    | numbered n =>
      rw [plainStep] at hs
      split at hs <;> cases hs
      exact hstill _ rfl rfl
    | named s =>
      rw [plainStep] at hs
      dsimp only at hs
      split at hs <;> cases hs
      exact hstill _ rfl rfl
    | quantifier =>
      obtain ⟨node, items, -, rfl⟩ := exists_of_plainStep_quantifier hs
      exact hstill _ rfl rfl
    | classOpen negated =>
      cases hs
      exact ⟨_, _, rfl, rfl⟩
    | groupOpen o => exact absurd rfl (ho o)
    | groupClose => exact absurd rfl hc
    | classClose | hyphen | difference | intersection => cases hs
  | cons c cs =>
    rw [step, hclasses] at hs
    dsimp only at hs
    obtain ⟨-, ⟨classes, hl, hall⟩ | ⟨content, rfl, rfl, hall⟩⟩ := classStep_cases hs
    · rw [hall] at hs
      cases hs
      exact ⟨classes, _, rfl, hl⟩
    · rw [hall] at hs
      cases hs
      exact ⟨[], _, rfl, rfl⟩

theorem length_outer_groupOpen {o : Opener} (hs : r.step g names (.groupOpen o) = some s) :
    s.outer.length = r.outer.length + 1 := by
  rw [step_of_classes_eq_nil (classes_eq_nil (.inl rfl) hs)] at hs
  cases o <;> cases hs <;> rfl

theorem length_outer_groupClose (hs : r.step g names .groupClose = some s) :
    r.outer.length = s.outer.length + 1 := by
  have hnil := classes_eq_nil (.inl rfl) hs
  cases houter : r.outer with
  | nil =>
    rw [step_of_classes_eq_nil hnil, plainStep, houter] at hs
    cases hs
  | cons o os =>
    rw [step_groupClose hnil houter] at hs
    cases hs
    rfl

/-- The classes that are open are counted. -/
theorem length_classes_step (hs : r.step g names t = some s) :
    s.classes.length = t.classDepth r.classes.length := by
  cases t with
  | groupOpen o =>
    rw [step_of_classes_eq_nil (classes_eq_nil (.inl rfl) hs)] at hs
    cases o <;> cases hs <;> rfl
  | groupClose =>
    rw [step_of_classes_eq_nil (classes_eq_nil (.inl rfl) hs), plainStep] at hs
    split at hs <;> cases hs
    rfl
  | _ =>
    obtain ⟨classes, group, rfl, hl⟩ := exists_of_step (by simp) (by simp) hs
    exact hl

theorem length_classes_foldlM {ts : List Token} (h : ts.foldlM (step g names) r = some s) :
    s.classes.length = ts.foldl Token.classDepth r.classes.length := by
  induction ts generalizing r with
  | nil =>
    cases h
    rfl
  | cons t ts ih =>
    rw [List.foldlM_cons] at h
    obtain ⟨r', hr', h⟩ := Option.bind_eq_some_iff.1 h
    rw [List.foldl_cons, ← length_classes_step hr']
    exact ih h

/-- **In a pattern that is read, every group that opens is closed.** -/
theorem closesAll_of_foldlM {ts : List Token} (h : ts.foldlM (step g names) r = some s)
    (hs : s.outer = []) : closesAll r.outer.length ts := by
  induction ts generalizing r with
  | nil =>
    cases h
    rw [hs]
    rfl
  | cons t ts ih =>
    rw [List.foldlM_cons] at h
    obtain ⟨r', hr', h⟩ := Option.bind_eq_some_iff.1 h
    have hrest := ih h
    cases t with
    | groupOpen o =>
      rw [length_outer_groupOpen hr'] at hrest
      exact hrest
    | groupClose =>
      rw [length_outer_groupClose hr', closesAll]
      exact hrest
    | _ =>
      obtain ⟨classes, group, rfl, -⟩ := exists_of_step (by simp) (by simp) hr'
      exact hrest

/-- A pattern that is read refers by numbers only to captures that it has. -/
theorem le_of_numbered_mem {ts : List Token} (h : ts.foldlM (step g names) r = some s) {k : Nat}
    (hk : .numbered k ∈ ts) : k ≤ names.length := by
  induction ts generalizing r with
  | nil => cases hk
  | cons t ts ih =>
    rw [List.foldlM_cons] at h
    obtain ⟨r', hr', h⟩ := Option.bind_eq_some_iff.1 h
    rcases List.mem_cons.1 hk with rfl | hk
    · rw [step_of_classes_eq_nil (classes_eq_nil (.inl rfl) hr'), plainStep] at hr'
      split at hr'
      next hle => exact hle
      next => cases hr'
    · exact ih h hk

/-! ## Quantifiers -/

/-- What comes last, if anything, cannot be repeated. -/
def isBarred (r : Reading) : Prop :=
  ∀ i ∈ r.group.items.head?, i.repeatable = false

theorem isBarred_of_step (ht : t.barsQuantifier) (hs : r.step g names t = some s) : s.isBarred := by
  cases t with
  | groupOpen o =>
    rw [step_of_classes_eq_nil (classes_eq_nil (.inl rfl) hs)] at hs
    cases o <;> cases hs <;> simp [isBarred]
  | quantifier =>
    rw [step_of_classes_eq_nil (classes_eq_nil (.inr rfl) hs)] at hs
    obtain ⟨node, items, -, rfl⟩ := exists_of_plainStep_quantifier hs
    simp [isBarred]
  | _ => cases ht

theorem not_isBarred_of_step (hu : u.isQuantifier) (hs : r.step g names u = some s) :
    ¬ r.isBarred := by
  cases u with
  | quantifier =>
    rw [step_of_classes_eq_nil (classes_eq_nil (.inr rfl) hs)] at hs
    obtain ⟨node, items, hitems, -⟩ := exists_of_plainStep_quantifier hs
    simp [isBarred, hitems]
  | _ => cases hu

/-- **In a pattern that is read, no quantifier follows what cannot be repeated.** -/
theorem isChain_precedes {ts : List Token} (h : ts.foldlM (step g names) r = some s) :
    ts.IsChain Token.Precedes := by
  induction ts generalizing r with
  | nil => exact .nil
  | cons t ts ih =>
    rw [List.foldlM_cons] at h
    obtain ⟨r', hr', h⟩ := Option.bind_eq_some_iff.1 h
    cases ts with
    | nil => exact .singleton t
    | cons u us =>
      refine .cons_cons (fun ht => ?_) (ih h)
      rw [List.foldlM_cons] at h
      obtain ⟨r'', hr'', -⟩ := Option.bind_eq_some_iff.1 h
      rw [← Bool.not_eq_true]
      exact fun hu => not_isBarred_of_step hu hr'' (isBarred_of_step ht hr')

end Reading

end Diglot.Host
