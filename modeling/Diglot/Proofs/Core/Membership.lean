import Diglot.Core.CharClass
import Diglot.Proofs.Source.Membership

/-!
# Members of lowered classes

A class whose names are known is lowered to one with the same members (`has_lowerClass`). What it is
lowered to can be written: its ranges go upwards, its intersections have operands, and the host
knows its properties.
-/

namespace Diglot.Core

open Unicode Host

variable {p : Property} {name : String} {ascii : Bool}

/-! ## Members -/

/-- Whether a character is in a shorthand class of the host. -/
def Builtin.has : Builtin → Char → Bool
  | digit, c => '0' ≤ c && c ≤ '9'
  | word, c => isAsciiWord c
  | space, c => isSpace c

mutual

/-- Whether a character is in a class. -/
def CharClass.has : CharClass → Char → Bool
  | .mk negated items _, c => negated != anyHas items c

/-- Whether a character is in an item of a class. -/
def ClassItem.has : ClassItem → Char → Bool
  | .char d, c => c = d
  | .range a b, c => a ≤ c && c ≤ b
  | .property name negated, c => negated != (Property.ofText? name.toList).any (·.has c)
  | .builtin kind negated, c => negated != kind.has c
  | .nested cls, c => cls.has c
  | .intersection operands, c => allHave operands c

/-- Whether a character is in one of the items. -/
def anyHas : List ClassItem → Char → Bool
  | [], _ => false
  | i :: is, c => i.has c || anyHas is c

/-- Whether a character is in all of the classes. -/
def allHave : List CharClass → Char → Bool
  | [], _ => true
  | k :: ks, c => k.has c && allHave ks c

end

theorem anyHas_eq (is : List ClassItem) (c : Char) : anyHas is c = is.any (·.has c) := by
  induction is with
  | nil => rfl
  | cons i is ih => rw [anyHas, ih, List.any_cons]

theorem anyHas_append (is js : List ClassItem) (c : Char) :
    anyHas (is ++ js) c = (anyHas is c || anyHas js c) := by
  rw [anyHas_eq, anyHas_eq, anyHas_eq, List.any_append]

mutual

/-- Whether the host can say what the class is. -/
def CharClass.expressible : CharClass → Bool
  | .mk _ items _ => itemsExpressible items

/-- Whether the host can say what the item is. -/
def ClassItem.expressible : ClassItem → Bool
  | .range a b => a ≤ b
  | .property name _ => (Property.ofText? name.toList).isSome
  | .nested cls => cls.expressible
  | .intersection operands => !operands.isEmpty && classesExpressible operands
  | .char _ | .builtin _ _ => true

/-- Whether the host can say what the items are. -/
def itemsExpressible : List ClassItem → Bool
  | [] => true
  | i :: is => i.expressible && itemsExpressible is

/-- Whether the host can say what the classes are. -/
def classesExpressible : List CharClass → Bool
  | [] => true
  | k :: ks => k.expressible && classesExpressible ks

end

theorem itemsExpressible_eq (is : List ClassItem) :
    itemsExpressible is = is.all (·.expressible) := by
  induction is with
  | nil => rfl
  | cons i is ih => rw [itemsExpressible, ih, List.all_cons]

theorem itemsExpressible_append (is js : List ClassItem) :
    itemsExpressible (is ++ js) = (itemsExpressible is && itemsExpressible js) := by
  rw [itemsExpressible_eq, itemsExpressible_eq, itemsExpressible_eq, List.all_append]

/-! ## Named sets -/

/-- A sign and items say what a set has, in terms that the host can express. -/
structure Expresses (negated : Bool) (items : List ClassItem) (has : Char → Bool) : Prop where
  expressible : itemsExpressible items
  has_eq : ∀ c, (negated != anyHas items c) = has c

theorem Expresses.congr {negated : Bool} {items : List ClassItem} {p q : Char → Bool}
    (h : Expresses negated items p) (hpq : ∀ c, q c = p c) : Expresses negated items q :=
  ⟨h.expressible, fun c => (h.has_eq c).trans (hpq c).symm⟩

/-- The host knows the properties that POSIX classes are made of. -/
theorem isSome_ofText? (h : name ∈ posixProperties) : (Property.ofText? name.toList).isSome := by
  have hall : posixProperties.all fun s => (Property.ofText? s.toList).isSome := by decide +kernel
  exact List.all_eq_true.1 hall name h

theorem has_property (h : Property.ofText? name.toList = some p) (negated : Bool) (c : Char) :
    (ClassItem.property name negated).has c = (negated != p.has c) := by
  rw [ClassItem.has, h, Option.any_some]

/-- A single property stands for itself. -/
theorem expresses_property (h : Property.ofText? name.toList = some p) (negated : Bool) :
    Expresses false [.property name negated] fun c => negated != p.has c where
  expressible := by simp [itemsExpressible, ClassItem.expressible, h]
  has_eq c := by simp [anyHas, has_property h]

theorem expresses_builtin (kind : Builtin) (negated : Bool) :
    Expresses false [.builtin kind negated] fun c => negated != kind.has c where
  expressible := rfl
  has_eq c := by simp [anyHas, ClassItem.has]

theorem ofText?_wordItems :
    Property.ofText? "L".toList = some (.category Category.letters) ∧
    Property.ofText? "M".toList = some (.category Category.marks) ∧
    Property.ofText? "N".toList = some (.category Category.numbers) ∧
    Property.ofText? "Pc".toList = some (.category [.pc]) := by
  decide +kernel

/-- The letters, marks, numbers and connectors are the word characters. -/
theorem expresses_wordItems (negated : Bool) : Expresses negated wordItems fun c =>
    negated != hasCategory (Category.letters ++ Category.marks ++ Category.numbers ++ [.pc]) c where
  expressible := by
    have hall : ∀ s ∈ ["L", "M", "N", "Pc"], s ∈ posixProperties := by decide
    rw [itemsExpressible_eq, wordItems, List.all_map, List.all_eq_true]
    exact fun s hs => isSome_ofText? (hall s hs)
  has_eq c := by
    obtain ⟨hl, hm, hn, hp⟩ := ofText?_wordItems
    have hword : anyHas wordItems c
        = hasCategory (Category.letters ++ Category.marks ++ Category.numbers ++ [.pc]) c := by
      simp only [wordItems, List.map_cons, List.map_nil, anyHas, has_property hl, has_property hm,
        has_property hn, has_property hp, Property.has, hasCategory, List.any_append]
      simp [Bool.or_assoc]
    rw [hword]

theorem expressible_posixItem {part : PosixPart} (h : part.regular) :
    (posixItem part).expressible := by
  cases part with
  | property name => exact isSome_ofText? (List.contains_iff_mem.1 h)
  | range a b =>
    rw [posixItem]
    split
    · rfl
    · exact h

/-- The parts of a POSIX class in the table are ranges that go upwards and known properties. -/
theorem posixClass?_expressible {p : PosixClass} (h : posixClass? ascii name = some p) :
    itemsExpressible (p.parts.map posixItem) := by
  rw [itemsExpressible_eq, List.all_map, List.all_eq_true]
  exact fun part hpart => expressible_posixItem
    (List.all_eq_true.1 (regular_of_posixClass? h) part hpart)

theorem has_posixItem (part : PosixPart) (c : Char) : (posixItem part).has c = part.has c := by
  cases part with
  | property name => simp [posixItem, ClassItem.has, PosixPart.has]
  | range a b =>
    rw [posixItem]
    split
    next hab =>
      subst hab
      rw [ClassItem.has, PosixPart.has, ← Bool.decide_and]
      exact decide_eq_decide.2 ⟨fun h => ⟨h ▸ Char.le_refl _, h ▸ Char.le_refl _⟩,
        fun h => Char.le_antisymm h.2 h.1⟩
    next => rfl

theorem posixIsAscii_eq (o : SetOptions) (name : String) :
    o.posixIsAscii name = o.flags.posixIsAscii name := by
  unfold SetOptions.posixIsAscii Flags.posixIsAscii
  split <;> simp_all

theorem expresses_posix {p : PosixClass} (h : posixClass? ascii name = some p) (negated : Bool) :
    Expresses (p.negated != negated) (p.parts.map posixItem) fun c => negated != p.has c where
  expressible := posixClass?_expressible h
  has_eq c := by
    have hparts : anyHas (p.parts.map posixItem) c = p.parts.any (·.has c) := by
      rw [anyHas_eq, List.any_map]
      exact congrArg (List.any p.parts) (funext fun part => has_posixItem part c)
    rw [hparts, PosixClass.has]
    cases p.negated <;> cases negated <;> simp

/-- **A named set that is known is lowered to what it has.** -/
theorem exists_lowerSet (o : SetOptions) (s : Source.CharSet) (h : s.known o.flags o.strict) :
    ∃ negated items, lowerSet o s = .ok (negated, items) ∧
      Expresses negated items (s.has o.flags) := by
  cases s with
  | digit n =>
    refine ⟨_, _, rfl, ?_⟩
    have hd : Property.ofText? "Nd".toList = some (.category [.nd]) := by decide +kernel
    cases hf : o.flags.asciiDigit with
    | true =>
      refine (expresses_builtin .digit n).congr fun c => ?_
      rw [Source.CharSet.has, hf, if_pos rfl, Builtin.has]
    | false =>
      refine (expresses_property hd n).congr fun c => ?_
      simp [Source.CharSet.has, hf, Property.has, hasCategory]
  | word n =>
    cases hf : o.flags.asciiWord with
    | true =>
      refine ⟨false, [.builtin .word n], by simp [lowerSet, hf]; rfl, ?_⟩
      refine (expresses_builtin .word n).congr fun c => ?_
      rw [Source.CharSet.has, hf, if_pos rfl, Builtin.has]
    | false =>
      refine ⟨n, wordItems, by simp [lowerSet, hf]; rfl, ?_⟩
      refine (expresses_wordItems n).congr fun c => ?_
      rw [Source.CharSet.has, hf, if_neg Bool.false_ne_true]
  | space n =>
    have hw : Property.ofText? "White_Space".toList = some (.binary "White_Space") := by
      decide +kernel
    cases hf : o.flags.asciiSpace with
    | true =>
      refine ⟨n, [.range '\t' '\r', .char ' '], by simp [lowerSet, hf]; rfl, by decide, fun c => ?_⟩
      simp [Source.CharSet.has, hf, anyHas, ClassItem.has]
    | false =>
      refine ⟨false, [.property "White_Space" n], by simp [lowerSet, hf]; rfl, ?_⟩
      refine (expresses_property hw n).congr fun c => ?_
      rw [Source.CharSet.has, hf, if_neg Bool.false_ne_true]
      rfl
  | hex n =>
    refine ⟨_, _, rfl, by decide, fun c => ?_⟩
    simp [Source.CharSet.has, anyHas, ClassItem.has, Bool.or_assoc]
  | property name n =>
    obtain ⟨p, hp⟩ := Option.isSome_iff_exists.1 h
    have hname : Property.ofText? (String.ofList (propertyExpression name.toList)).toList = some p := by
      simpa [Source.property?] using hp
    exact ⟨_, _, rfl, (expresses_property hname n).congr fun c => by
      rw [Source.CharSet.has, hp, Option.any_some]⟩
  | posix name n =>
    rw [Source.CharSet.known, Option.any_eq_true] at h
    obtain ⟨p, hp, hexact⟩ := h
    have hclass : posixClass? (o.posixIsAscii name) name = some p := by
      rw [posixIsAscii_eq]
      exact hp
    refine ⟨p.negated != n, p.parts.map posixItem, ?_, ?_⟩
    · rw [lowerSet, lowerPosix, hclass]
      dsimp only
      cases hx : p.exact with
      | true => rfl
      | false =>
        have hstrict : o.strict = false := by simpa [hx] using hexact
        rw [approximate, hstrict]
        rfl
    · exact (expresses_posix hclass n).congr fun c => by
        rw [Source.CharSet.has, hp, Option.any_some]
  | notNewline =>
    refine ⟨_, _, rfl, rfl, fun c => ?_⟩
    by_cases hc : c = '\n' <;> simp [Source.CharSet.has, anyHas, ClassItem.has, hc]
  | any =>
    refine ⟨_, _, rfl, rfl, fun c => ?_⟩
    simp [Source.CharSet.has, CharClass.any, CharClass.of, CharClass.items, anyHas, ClassItem.has]

/-! ## Bracketed classes -/

/-- The items that a class adds to the class around it have its members. -/
theorem anyHas_mergedItems (cls : CharClass) (c : Char) : anyHas (mergedItems cls) c = cls.has c := by
  obtain ⟨negated, items, ic⟩ := cls
  unfold mergedItems
  split
  · simp [anyHas, ClassItem.has]
  next h =>
    have hn : negated = false := by
      simp only [CharClass.negated, Bool.or_eq_true, not_or] at h
      simpa using h.1
    rw [CharClass.has, hn, Bool.false_bne]
    rfl

theorem itemsExpressible_mergedItems {cls : CharClass} (h : cls.expressible) :
    itemsExpressible (mergedItems cls) := by
  obtain ⟨negated, items, ic⟩ := cls
  unfold mergedItems
  split
  · simpa [itemsExpressible, ClassItem.expressible] using h
  · exact h

variable (o : SetOptions) (ic : Bool)

mutual

/-- **A class whose names are known is lowered to one with the same members.** -/
theorem has_lowerClass : ∀ cls : Source.CharClass, cls.ordered → cls.known o.flags o.strict →
    ∃ k, lowerClass o ic cls = .ok k ∧ k.expressible ∧ ∀ c, k.has c = cls.has o.flags c
  | .mk negated items, ho, hk => by
    obtain ⟨is, hl, he, hhas⟩ := has_lowerItems items ho hk
    refine ⟨.mk negated is ic, ?_, he, fun c => ?_⟩
    · rw [lowerClass, hl]
      rfl
    · rw [CharClass.has, Source.CharClass.has, hhas]

theorem has_lowerItems : ∀ is : List Source.ClassItem, Source.itemsOrdered is →
    Source.itemsKnown o.flags o.strict is →
    ∃ items, lowerItems o ic is = .ok items ∧ itemsExpressible items ∧
      ∀ c, anyHas items c = Source.anyHas o.flags is c
  | [], _, _ => ⟨[], rfl, rfl, fun _ => rfl⟩
  | i :: is, ho, hk => by
    rw [Source.itemsOrdered, Bool.and_eq_true] at ho
    rw [Source.itemsKnown, Bool.and_eq_true] at hk
    obtain ⟨first, hfirst, hef, hhf⟩ := has_lowerItem i ho.1 hk.1
    obtain ⟨others, hothers, heo, hho⟩ := has_lowerItems is ho.2 hk.2
    refine ⟨first ++ others, ?_, ?_, fun c => ?_⟩
    · rw [lowerItems, hfirst, hothers]
      rfl
    · rw [itemsExpressible_append, hef, heo]
      rfl
    · rw [anyHas_append, Source.anyHas, hhf, hho]

theorem has_lowerItem : ∀ i : Source.ClassItem, i.ordered → i.known o.flags o.strict →
    ∃ items, lowerItem o ic i = .ok items ∧ itemsExpressible items ∧
      ∀ c, anyHas items c = i.has o.flags c
  | .char d, _, _ => by
    refine ⟨[.char d], rfl, rfl, fun c => ?_⟩
    simp [anyHas, ClassItem.has, Source.ClassItem.has]
  | .range a b, ho, _ => by
    refine ⟨[.range a b], rfl, ?_, fun c => ?_⟩
    · simpa [itemsExpressible, ClassItem.expressible, Source.ClassItem.ordered] using ho
    · simp [anyHas, ClassItem.has, Source.ClassItem.has]
  | .set s, _, hk => by
    obtain ⟨negated, items, hl, he, hhas⟩ := exists_lowerSet o s hk
    rw [lowerItem, hl]
    refine ⟨_, rfl, ?_, fun c => ?_⟩
    · cases negated <;> simpa [itemsExpressible, ClassItem.expressible, CharClass.expressible] using he
    · rw [Source.ClassItem.has, ← hhas c]
      cases negated <;> simp [anyHas, ClassItem.has, CharClass.has]
  | .nested cls, ho, hk => by
    obtain ⟨k, hl, he, hhas⟩ := has_lowerClass cls ho hk
    refine ⟨mergedItems k, ?_, itemsExpressible_mergedItems he, fun c => ?_⟩
    · rw [lowerItem, hl]
      rfl
    · rw [anyHas_mergedItems, hhas, Source.ClassItem.has]
  | .intersection operands, ho, hk => by
    rw [Source.ClassItem.ordered, Bool.and_eq_true] at ho
    obtain ⟨ks, hl, he, hempty, hhas⟩ := has_lowerOperands operands ho.2 hk
    refine ⟨[.intersection ks], ?_, ?_, fun c => ?_⟩
    · rw [lowerItem, hl]
      rfl
    · simpa [itemsExpressible, ClassItem.expressible, he, hempty] using ho.1
    · simp [anyHas, ClassItem.has, Source.ClassItem.has, hhas]

theorem has_lowerOperands : ∀ ks : List Source.CharClass, Source.classesOrdered ks →
    Source.classesKnown o.flags o.strict ks →
    ∃ classes, lowerOperands o ic ks = .ok classes ∧ classesExpressible classes ∧
      classes.isEmpty = ks.isEmpty ∧ ∀ c, allHave classes c = Source.allHave o.flags ks c
  | [], _, _ => ⟨[], rfl, rfl, rfl, fun _ => rfl⟩
  | k :: ks, ho, hk => by
    rw [Source.classesOrdered, Bool.and_eq_true] at ho
    rw [Source.classesKnown, Bool.and_eq_true] at hk
    obtain ⟨first, hfirst, hef, hhf⟩ := has_lowerClass k ho.1 hk.1
    obtain ⟨others, hothers, heo, -, hho⟩ := has_lowerOperands ks ho.2 hk.2
    refine ⟨first :: others, ?_, ?_, rfl, fun c => ?_⟩
    · rw [lowerOperands, hfirst, hothers]
      rfl
    · rw [classesExpressible, hef, heo]
      rfl
    · rw [allHave, Source.allHave, hhf, hho]

end

end Diglot.Core
