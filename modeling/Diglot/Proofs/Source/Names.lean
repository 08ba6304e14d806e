import Diglot.Source.Tree
import Mathlib.Tactic.Basic

/-!
# Names in source trees

The names that a source tree has: those of its groups, and those of the properties in it and in its
classes.
-/

namespace Diglot.Source

/-- What the names in a tree have to satisfy. -/
structure NameRule where
  title : String → Bool := fun _ => true
  property : String → Bool := fun _ => true

/-- Whether the name of a property satisfies the rule. -/
def CharSet.keeps (r : NameRule) : CharSet → Bool
  | .property name _ => r.property name
  | _ => true

mutual

/-- Whether the names in a class satisfy the rule. -/
def CharClass.keeps (r : NameRule) : CharClass → Bool
  | .mk _ items => keepsItems r items

/-- Whether the names in an item of a class satisfy the rule. -/
def ClassItem.keeps (r : NameRule) : ClassItem → Bool
  | .set s => s.keeps r
  | .nested cls => cls.keeps r
  | .intersection operands => keepsClasses r operands
  | _ => true

/-- Whether the names in items of a class satisfy the rule. -/
def keepsItems (r : NameRule) : List ClassItem → Bool
  | [] => true
  | i :: is => i.keeps r && keepsItems r is

/-- Whether the names in classes satisfy the rule. -/
def keepsClasses (r : NameRule) : List CharClass → Bool
  | [] => true
  | c :: cs => c.keeps r && keepsClasses r cs

end

/-- Whether the name of a group satisfies the rule. -/
def GroupKind.keeps (r : NameRule) : GroupKind → Bool
  | .capture _ name => name.all r.title
  | _ => true

mutual

/-- Whether the names in a tree satisfy the rule. -/
def Node.keeps (r : NameRule) : Node → Bool
  | .set s => s.keeps r
  | .charClass c => c.keeps r
  | .group kind body => kind.keeps r && body.keeps r
  | .sequence ns | .alternation ns => keepsAll r ns
  | .repeated body _ | .absent body => body.keeps r
  | _ => true

/-- Whether the names in trees satisfy the rule. -/
def keepsAll (r : NameRule) : List Node → Bool
  | [] => true
  | n :: ns => n.keeps r && keepsAll r ns

end

/-- Property names without the brackets of classes. -/
def NameRule.unbracketed : NameRule where
  property name := !name.toList.contains '[' && !name.toList.contains ']'

theorem keepsItems_eq (r : NameRule) (is : List ClassItem) : keepsItems r is = is.all (·.keeps r) := by
  induction is with
  | nil => rfl
  | cons i is ih => rw [keepsItems, ih, List.all_cons]

theorem keepsClasses_eq (r : NameRule) (cs : List CharClass) :
    keepsClasses r cs = cs.all (·.keeps r) := by
  induction cs with
  | nil => rfl
  | cons c cs ih => rw [keepsClasses, ih, List.all_cons]

/-! ## Two rules at once -/

namespace NameRule

/-- The third rule asks no more than the first two together. -/
structure Follows (c a b : NameRule) : Prop where
  title : ∀ s, a.title s → b.title s → c.title s
  property : ∀ s, a.property s → b.property s → c.property s

variable {a b c : NameRule}

theorem Follows.charSet (h : c.Follows a b) {s : CharSet} (ha : s.keeps a) (hb : s.keeps b) :
    s.keeps c := by
  cases s <;> first | rfl | exact h.property _ ha hb

mutual

theorem Follows.charClass (h : c.Follows a b) : ∀ (cls : CharClass), cls.keeps a → cls.keeps b →
    cls.keeps c
  | .mk _ items, ha, hb => by
    rw [CharClass.keeps] at *
    exact h.classItems items ha hb

theorem Follows.classItem (h : c.Follows a b) : ∀ (i : ClassItem), i.keeps a → i.keeps b →
    i.keeps c
  | .char _, _, _ | .range _ _, _, _ => rfl
  | .set s, ha, hb => by
    rw [ClassItem.keeps] at *
    exact h.charSet ha hb
  | .nested cls, ha, hb => by
    rw [ClassItem.keeps] at *
    exact h.charClass cls ha hb
  | .intersection operands, ha, hb => by
    rw [ClassItem.keeps] at *
    exact h.charClasses operands ha hb

theorem Follows.classItems (h : c.Follows a b) : ∀ (is : List ClassItem), keepsItems a is →
    keepsItems b is → keepsItems c is
  | [], _, _ => rfl
  | i :: is, ha, hb => by
    rw [keepsItems, Bool.and_eq_true] at *
    exact ⟨h.classItem i ha.1 hb.1, h.classItems is ha.2 hb.2⟩

theorem Follows.charClasses (h : c.Follows a b) : ∀ (cs : List CharClass), keepsClasses a cs →
    keepsClasses b cs → keepsClasses c cs
  | [], _, _ => rfl
  | cls :: cs, ha, hb => by
    rw [keepsClasses, Bool.and_eq_true] at *
    exact ⟨h.charClass cls ha.1 hb.1, h.charClasses cs ha.2 hb.2⟩

end

theorem Follows.groupKind (h : c.Follows a b) {k : GroupKind} (ha : k.keeps a) (hb : k.keeps b) :
    k.keeps c := by
  match k with
  | .capture _ none => rfl
  | .capture _ (some s) => exact h.title s ha hb
  | .plain | .atomic | .look _ | .flags _ => rfl

end NameRule

end Diglot.Source
