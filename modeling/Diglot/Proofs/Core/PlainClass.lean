import Diglot.Proofs.Emitted.ClassPhrases
import Diglot.Proofs.Source.Membership
import Diglot.Proofs.Unicode.PropertyName

/-!
# Plain classes

A class is lowered to one whose property names are plain if those of the class itself are, since the
host's spelling of a name has no brackets that the name has not.
-/

namespace Diglot

open Emitted Unicode

/-- Readable names, and property names without the brackets of classes. -/
def Source.NameRule.plain : NameRule where
  title := NameRule.readable.title
  property name := NameRule.readable.property name && NameRule.unbracketed.property name

theorem Source.NameRule.plain_follows : NameRule.Follows .plain .readable .unbracketed where
  title _ h _ := h
  property _ h h' := Bool.and_eq_true_iff.2 ⟨h, h'⟩

namespace Core

variable {name : String} {items : List ClassItem} {o : SetOptions} {negated : Bool}

theorem plainName_of_unbracketed {cs : List Char} (h : Unbracketed cs) :
    PlainName (String.ofList cs) := by
  intro c hc
  have hb := h c (by simpa using hc)
  simpa [brackets] using hb

theorem unbracketed_of_plain (h : Source.NameRule.plain.property name) :
    Unbracketed name.toList := by
  intro c hc hb
  simp only [Source.NameRule.plain, Source.NameRule.readable, Source.NameRule.unbracketed,
    Bool.and_eq_true, Bool.not_eq_true', List.contains_eq_mem, decide_eq_false_iff_not] at h
  simp only [brackets, List.mem_cons, List.not_mem_nil, or_false] at hb
  rcases hb with rfl | rfl | rfl
  · exact h.2.1 hc
  · exact h.2.2 hc
  · exact h.1 hc

theorem plainItems_iff : PlainItems items ↔ ∀ i ∈ items, PlainItem i := by
  induction items with
  | nil => simp [PlainItems]
  | cons i is ih => rw [PlainItems, ih, List.forall_mem_cons]

/-! ## Named sets -/

theorem plainName_of_mem {s : String} (h : s ∈ posixProperties) : PlainName s := by
  have hall : ∀ s ∈ posixProperties, s.toList.all fun c => !brackets.contains c := by decide
  have hchars : Unbracketed s.toList := fun c hc hb => by
    simpa [hb] using List.all_eq_true.1 (hall s h) c hc
  simpa using plainName_of_unbracketed hchars

theorem plainItem_posixItem {part : PosixPart} (h : part.regular) : PlainItem (posixItem part) := by
  cases part with
  | property s => exact plainName_of_mem (List.contains_iff_mem.1 h)
  | range a b =>
    rw [posixItem]
    split <;> trivial

theorem plainItems_wordItems : PlainItems wordItems :=
  plainItems_iff.2 fun i hi => by
    obtain ⟨s, hs, rfl⟩ := List.mem_map.1 hi
    have hall : ∀ s ∈ ["L", "M", "N", "Pc"], s ∈ posixProperties := by decide
    exact plainName_of_mem (hall s hs)

theorem plainItems_of_lowerPosix {n : Bool} (h : lowerPosix o name negated = .ok (n, items)) :
    PlainItems items := by
  unfold lowerPosix at h
  split at h
  next => cases h
  next p hp =>
    have hitems : PlainItems (p.parts.map posixItem) := by
      refine plainItems_iff.2 fun i hi => ?_
      obtain ⟨part, hpart, rfl⟩ := List.mem_map.1 hi
      exact plainItem_posixItem (List.all_eq_true.1 (regular_of_posixClass? hp) part hpart)
    split at h
    · obtain ⟨_, _, h⟩ := exists_of_bind_eq_ok h
      cases h
      exact hitems
    · cases h
      exact hitems

theorem plainItems_of_lowerSet {s : Source.CharSet} (hs : s.keeps .plain)
    (h : lowerSet o s = .ok (negated, items)) : PlainItems items := by
  cases s with
  | digit n =>
    cases h
    split
    · exact ⟨trivial, trivial⟩
    · exact ⟨plainName_of_mem (by decide), trivial⟩
  | word n =>
    rw [lowerSet] at h
    split at h <;> cases h
    · exact ⟨trivial, trivial⟩
    · exact plainItems_wordItems
  | space n =>
    rw [lowerSet] at h
    split at h <;> cases h
    · exact ⟨trivial, trivial, trivial⟩
    · exact ⟨plainName_of_mem (by decide), trivial⟩
  | hex n =>
    cases h
    exact ⟨trivial, trivial, trivial, trivial⟩
  | property name n =>
    cases h
    have hname := propertyExpression_unbracketed (unbracketed_of_plain hs)
    exact ⟨plainName_of_unbracketed hname, trivial⟩
  | posix name n => exact plainItems_of_lowerPosix h
  | notNewline =>
    cases h
    exact ⟨trivial, trivial⟩
  | any =>
    cases h
    exact ⟨trivial, trivial, trivial⟩

/-! ## Bracketed classes -/

theorem plainItems_append {is js : List ClassItem} (hi : PlainItems is) (hj : PlainItems js) :
    PlainItems (is ++ js) := by
  rw [plainItems_iff] at *
  exact List.forall_mem_append.2 ⟨hi, hj⟩

theorem plainItems_mergedItems {cls : CharClass} (h : PlainClass cls) :
    PlainItems (mergedItems cls) := by
  obtain ⟨negated, items, ic⟩ := cls
  unfold mergedItems
  split
  · exact ⟨h, trivial⟩
  · exact h

mutual

theorem plainClass_of_lowerClass (o : SetOptions) (ic : Bool) : ∀ (cls : Source.CharClass)
    {c : CharClass}, cls.keeps .plain → lowerClass o ic cls = .ok c → PlainClass c
  | .mk negated items, c, hk, h => by
    rw [lowerClass] at h
    obtain ⟨is, hi, h⟩ := exists_of_bind_eq_ok h
    cases h
    exact plainItems_of_lowerItems o ic items hk hi

theorem plainItems_of_lowerItems (o : SetOptions) (ic : Bool) : ∀ (is : List Source.ClassItem)
    {items : List ClassItem}, Source.keepsItems .plain is → lowerItems o ic is = .ok items →
    PlainItems items
  | [], items, _, h => by
    cases h
    trivial
  | i :: is, items, hk, h => by
    rw [Source.keepsItems, Bool.and_eq_true] at hk
    rw [lowerItems] at h
    obtain ⟨first, hf, h⟩ := exists_of_bind_eq_ok h
    obtain ⟨others, ho, h⟩ := exists_of_bind_eq_ok h
    cases h
    exact plainItems_append (plainItems_of_lowerItem o ic i hk.1 hf)
      (plainItems_of_lowerItems o ic is hk.2 ho)

theorem plainItems_of_lowerItem (o : SetOptions) (ic : Bool) : ∀ (i : Source.ClassItem)
    {items : List ClassItem}, i.keeps .plain → lowerItem o ic i = .ok items → PlainItems items
  | .char _, items, _, h | .range _ _, items, _, h => by
    cases h
    exact ⟨trivial, trivial⟩
  | .set s, items, hk, h => by
    rw [lowerItem] at h
    obtain ⟨⟨negated, is⟩, hs, h⟩ := exists_of_bind_eq_ok h
    cases h
    have his := plainItems_of_lowerSet hk hs
    split
    · exact ⟨his, trivial⟩
    · exact his
  | .nested cls, items, hk, h => by
    rw [lowerItem] at h
    obtain ⟨c, hc, h⟩ := exists_of_bind_eq_ok h
    cases h
    exact plainItems_mergedItems (plainClass_of_lowerClass o ic cls hk hc)
  | .intersection operands, items, hk, h => by
    rw [lowerItem] at h
    obtain ⟨cs, hcs, h⟩ := exists_of_bind_eq_ok h
    cases h
    exact ⟨plainClasses_of_lowerOperands o ic operands hk hcs, trivial⟩

theorem plainClasses_of_lowerOperands (o : SetOptions) (ic : Bool) :
    ∀ (cs : List Source.CharClass) {classes : List CharClass}, Source.keepsClasses .plain cs →
    lowerOperands o ic cs = .ok classes → PlainClasses classes
  | [], classes, _, h => by
    cases h
    trivial
  | c :: cs, classes, hk, h => by
    rw [Source.keepsClasses, Bool.and_eq_true] at hk
    rw [lowerOperands] at h
    obtain ⟨first, hf, h⟩ := exists_of_bind_eq_ok h
    obtain ⟨others, ho, h⟩ := exists_of_bind_eq_ok h
    cases h
    exact ⟨plainClass_of_lowerClass o ic c hk.1 hf,
      plainClasses_of_lowerOperands o ic cs hk.2 ho⟩

end

end Core

end Diglot
