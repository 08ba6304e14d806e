import Diglot.Proofs.Core.Membership
import Diglot.Proofs.Emitted.ClassTokens
import Diglot.Proofs.Host.CharTexts
import Diglot.Proofs.Unicode.PropertyName

/-!
# What written classes match

Where case counts, the text of a class matches one character, which has to be a member of the class
(`matchesChar_classLeaf`). Flat items are read as one set between brackets. What stands around the
brackets combines sets: a group of alternatives is their union, a chain of looks ahead their
intersection, and a negative look ahead before any character the complement. Where case is ignored,
the same holds as long as folding keeps the sets of the flat items (`matchesCharIn_classLeaf`).
-/

namespace Diglot.Core

mutual

/-- The items of the class and of all classes inside it that are no classes themselves. -/
def CharClass.flatItems : CharClass → List ClassItem
  | .mk _ items _ => flatItemsOf items

/-- The item, or what is in it if it is a class or an intersection. -/
def ClassItem.flatItems : ClassItem → List ClassItem
  | .nested cls => cls.flatItems
  | .intersection operands => flatItemsOfAll operands
  | i => [i]

/-- The items that are no classes, and those of the classes. -/
def flatItemsOf : List ClassItem → List ClassItem
  | [] => []
  | i :: is => i.flatItems ++ flatItemsOf is

/-- The items of several classes that are no classes themselves. -/
def flatItemsOfAll : List CharClass → List ClassItem
  | [] => []
  | k :: ks => k.flatItems ++ flatItemsOfAll ks

end

end Diglot.Core

namespace Diglot.Emitted

open Diglot.Core Host Unicode

variable {name : String} {p : Host.Property} {text : List Char} {s : ClassStyle} {i : ClassItem}
  {rest : List ClassPart} {g : Grammar} {items others : List ClassItem} {negated ic v : Bool}

/-! ## Names that the host knows -/

/-- Whether a name has no brackets. -/
def plainText (s : String) : Bool :=
  s.toList.all fun c => !brackets.contains c

theorem plainText_of_bytes {s : String} (h : bytesUnbracketed s = true) : plainText s := by
  refine List.all_eq_true.2 fun c hc => ?_
  simpa using unbracketed_of_bytes h c hc

theorem plainText_of_ofCategory? (h : Property.ofCategory? name = some p) : plainText name := by
  have htable : (categoryNames.all fun x => x.1.all bytesUnbracketed) = true := by decide +kernel
  obtain ⟨x, hfind, -⟩ := Option.map_eq_some_iff.1 h
  have hx := List.all_eq_true.1 htable _ (List.mem_of_find?_eq_some hfind)
  have hname := List.find?_some hfind
  exact plainText_of_bytes (List.all_eq_true.1 hx name (List.contains_iff_mem.1 hname))

theorem plainText_of_ofName? (h : Property.ofName? name = some p) : plainText name := by
  have htable : (binaryProperties.all fun x => (x.1 :: x.2.1).all bytesUnbracketed) = true := by
    decide +kernel
  unfold Property.ofName? at h
  split at h
  next => decide
  next => decide
  next => decide
  next =>
    split at h
    next long others holds hfind =>
      have hx := List.all_eq_true.1 htable _ (List.mem_of_find?_eq_some hfind)
      have hname := List.find?_some hfind
      simp only [Bool.or_eq_true, beq_iff_eq, List.contains_iff_mem] at hname
      refine plainText_of_bytes (List.all_eq_true.1 hx name (List.mem_cons.2 ?_))
      exact hname.imp Eq.symm id
    next => exact plainText_of_ofCategory? h

theorem plainText_of_ofScript? {f : String → Host.Property} (h : Property.ofScript? f name = some p) :
    plainText name := by
  have htable : (scripts.all fun x => x.1.all bytesUnbracketed) = true := by decide +kernel
  unfold Property.ofScript? at h
  split at h
  next hunknown =>
    simp only [Bool.or_eq_true, beq_iff_eq] at hunknown
    rcases hunknown with rfl | rfl <;> decide
  next =>
    obtain ⟨long, hlong, -⟩ := Option.map_eq_some_iff.1 h
    obtain ⟨x, hfind, -⟩ := Option.bind_eq_some_iff.1 hlong
    have hx := List.all_eq_true.1 htable _ (List.mem_of_find?_eq_some hfind)
    have hname := List.find?_some hfind
    exact plainText_of_bytes (List.all_eq_true.1 hx name (List.contains_iff_mem.1 hname))

theorem plainText_of_ofValue? {value : String} (h : Property.ofValue? name value = some p) :
    plainText name ∧ plainText value := by
  unfold Property.ofValue? at h
  split at h
  next => exact ⟨by decide, plainText_of_ofCategory? h⟩
  next => exact ⟨by decide, plainText_of_ofCategory? h⟩
  next => exact ⟨by decide, plainText_of_ofScript? h⟩
  next => exact ⟨by decide, plainText_of_ofScript? h⟩
  next => exact ⟨by decide, plainText_of_ofScript? h⟩
  next => exact ⟨by decide, plainText_of_ofScript? h⟩
  next => cases h

/-- **No property that the host knows has brackets in its name.** -/
theorem unbracketed_of_ofText? (h : Property.ofText? text = some p) : Unbracketed text := by
  have hlist : ∀ cs : List Char, plainText (String.ofList cs) → Unbracketed cs := fun cs hcs =>
    unbracketed_of_all (by simpa [plainText] using hcs)
  unfold Property.ofText? at h
  split at h
  next name heq =>
    rw [(of_span heq).1, List.append_nil]
    exact hlist name (plainText_of_ofName? h)
  next name c value heq =>
    obtain ⟨rfl, -, hc⟩ := of_span heq
    obtain ⟨hname, hvalue⟩ := plainText_of_ofValue? h
    -- The character between the two parts is the first that is an equals sign.
    obtain rfl : c = '=' := by simpa using hc
    exact (hlist _ hname).append (unbracketed_cons (by decide) (hlist _ hvalue))

/-! ## Parts of brackets -/

/-- The set that the host takes an item for. -/
def itemSet : ClassItem → Host.CharSet
  | .char c => .span c.toNat c.toNat
  | .range a b => .span a.toNat b.toNat
  | .property name negated =>
    match Property.ofText? name.toList with
    | some p => signedSet negated (.property p)
    | none => .empty
  | .builtin kind negated => signedSet negated (builtinSet kind)
  | .nested _ | .intersection _ => .empty

/-- The parts of brackets that an item is written as. -/
def itemParts : ClassItem → List ClassPart
  | .char c => [.code c.toNat]
  | .range a b => [.code a.toNat, .hyphen, .code b.toNat]
  | .nested _ | .intersection _ => []
  | i => [.set (itemSet i)]

theorem exists_escapeInClass (v : Bool) (c : Char) :
    ∃ d ds, escapeInClass v c = d :: ds ∧ d ≠ '^' ∧ d ≠ '-' := by
  have hne : escapeInClass v c ≠ [] := by
    unfold escapeInClass escapePlain
    split_ifs <;> simp
  obtain ⟨d, ds, htext⟩ := List.exists_cons_of_ne_nil hne
  exact ⟨d, ds, htext, head_escapeInClass v c d (by simp [htext])⟩

theorem readsParts_code (hg : g = classGrammar v) (c : Char) :
    ReadsParts g (escapeInClass v c) [.code c.toNat] where
  lexes _ hx depth := lexes_escapeInClass (hx.trans hg) depth c
  head h := (head_escapeInClass v c _ h).1 rfl

theorem readsParts_set {s : Host.CharSet}
    (h : ∀ x : Dialect, x.grammar = g → ∀ depth, Lexes x depth depth text [.set s])
    (hhead : text.head? = some '\\') : ReadsParts g text [.set s] where
  lexes x hx depth := h x hx (depth + 1)
  head := by simp [hhead]

/-- A hyphen before a character is the sign of a range. -/
theorem lexes_hyphen (hg : g = classGrammar v) {x : Dialect} (hx : x.grammar = g) (depth : Nat)
    (c : Char) (rest : List Char) :
    LexesBefore x (depth + 1) (depth + 1) ['-'] [.hyphen] (escapeInClass v c ++ rest) := by
  refine LexesBefore.token ?_
  obtain ⟨d, ds, htext, -, hd⟩ := exists_escapeInClass v c
  rw [token?_class, htext]
  subst hg
  cases v with
  | true => simp [classToken?, hx, classGrammar, hd]
  | false => simp [classToken?, hx, classGrammar]

theorem readsParts_range (hg : g = classGrammar v) (a b : Char) :
    ReadsParts g (escapeInClass v a ++ '-' :: escapeInClass v b)
      [.code a.toNat, .hyphen, .code b.toNat] where
  lexes x hx depth rest := by
    have ha := lexes_escapeInClass (hx.trans hg) depth a ('-' :: escapeInClass v b ++ rest)
    have hb := lexes_escapeInClass (hx.trans hg) depth b rest
    exact ha.append ((lexes_hyphen hg hx depth b rest).append hb)
  head := by
    obtain ⟨d, ds, htext, hd, -⟩ := exists_escapeInClass v a
    simpa [htext] using hd

/-- **An item inside brackets is read as its parts.** -/
theorem readsParts_bracketItem (hs : s.expand = false) (hg : g = classGrammar s.v)
    (hi : i.expressible) :
    ∃ text, s.bracketItem i = .ok text ∧ ReadsParts g text (itemParts i) := by
  cases i with
  | char c =>
    refine ⟨escapeInClass s.v c, ?_, readsParts_code hg c⟩
    simp [ClassStyle.bracketItem, hs, pure, Except.pure]
  | range a b =>
    refine ⟨escapeInClass s.v a ++ '-' :: escapeInClass s.v b, ?_, readsParts_range hg a b⟩
    simp [ClassStyle.bracketItem, hs, pure, Except.pure, bind, Except.bind]
  | property name negated =>
    obtain ⟨p, hp⟩ := Option.isSome_iff_exists.1 hi
    refine ⟨propertyText name negated, rfl, ?_⟩
    have hbrace : '\x7d' ∉ name.toList := fun h => unbracketed_of_ofText? hp _ h (by decide)
    rw [itemParts, itemSet, hp]
    · exact readsParts_set (fun x hx depth => lexes_property
        (by rw [Dialect.isStrict, hx, hg, classGrammar_isStrict]) hbrace hp negated depth) rfl
    all_goals simp
  | builtin kind negated =>
    refine ⟨builtinText kind negated, rfl, readsParts_set (fun x _ depth => ?_) ?_⟩
    · exact lexes_builtin kind negated depth
    · cases kind <;> rfl
  | nested cls => exact ⟨[], rfl, .nil⟩
  | intersection operands => exact ⟨[], rfl, .nil⟩

theorem readsParts_bracketText (hs : s.expand = false) (hg : g = classGrammar s.v) :
    ∀ items : List ClassItem, itemsExpressible items →
    ∃ flat, s.bracketText items = .ok flat ∧ ReadsParts g flat (items.flatMap itemParts)
  | [], _ => ⟨[], rfl, .nil⟩
  | i :: is, h => by
    rw [itemsExpressible, Bool.and_eq_true] at h
    obtain ⟨first, hfirst, hparts⟩ := readsParts_bracketItem hs hg h.1
    obtain ⟨others, hothers, hrest⟩ := readsParts_bracketText hs hg is h.2
    refine ⟨first ++ others, ?_, hparts.append hrest⟩
    obtain ⟨texts, htexts, heq⟩ := exists_of_bind_eq_ok hothers
    cases heq
    rw [ClassStyle.bracketText, List.mapM_cons, hfirst]
    simp [bind, Except.bind, htexts, pure, Except.pure]

/-! ## Sets of brackets -/

/-- The set between brackets with the flat items among these. -/
def itemsSet : List ClassItem → Host.CharSet
  | [] => .empty
  | i :: is => if isFlat i then .union (itemSet i) (itemsSet is) else itemsSet is

theorem hyphen_not_head : ∀ items : List ClassItem,
    (items.flatMap itemParts).head? ≠ some .hyphen
  | [] => by simp
  | i :: is => by
    have hrest := hyphen_not_head is
    cases i with
    | char | range | property | builtin => simp [itemParts]
    | nested | intersection => simpa [itemParts] using hrest

/-- The parts of one item, before parts that do not begin with a hyphen. -/
theorem unionClass?_itemParts (hi : i.expressible) (hrest : rest.head? ≠ some .hyphen) :
    unionClass? (itemParts i ++ rest)
      = if isFlat i then (unionClass? rest).map (.union (itemSet i)) else unionClass? rest := by
  cases i with
  | char c =>
    show unionClass? (.code c.toNat :: rest) = _
    rw [unionClass?.eq_3]
    · cases unionClass? rest <;> rfl
    · rintro low high more - rfl
      exact hrest rfl
  | range a b =>
    have hab : a.toNat ≤ b.toNat := of_decide_eq_true hi
    show unionClass? (.code a.toNat :: .hyphen :: .code b.toNat :: rest) = _
    rw [unionClass?]
    cases unionClass? rest with
    | none => rfl
    | some others => exact if_pos hab
  | property name negated =>
    show unionClass? (.set (itemSet (.property name negated)) :: rest) = _
    rw [unionClass?]
    · cases unionClass? rest <;> rfl
    · simp
  | builtin kind negated =>
    show unionClass? (.set (itemSet (.builtin kind negated)) :: rest) = _
    rw [unionClass?]
    · cases unionClass? rest <;> rfl
    · simp
  | nested cls => rfl
  | intersection operands => rfl

theorem flatClass?_itemParts (hi : i.expressible) (hrest : rest.head? ≠ some .hyphen) :
    flatClass? g (itemParts i ++ rest)
      = if isFlat i then (flatClass? g rest).map (.union (itemSet i)) else flatClass? g rest := by
  have hone : ∀ a : ClassPart,
      flatClass? g (a :: rest) = (flatClass? g rest).map (.union a.asSet) := by
    intro a
    rw [flatClass?]
    · cases flatClass? g rest <;> rfl
    · rintro b more rfl
      exact hrest rfl
  cases i with
  | char c => exact hone (.code c.toNat)
  | range a b =>
    have hab : a.toNat ≤ b.toNat := of_decide_eq_true hi
    show flatClass? g (.code a.toNat :: .hyphen :: .code b.toNat :: rest) = _
    rw [flatClass?]
    cases flatClass? g rest with
    | none => rfl
    | some others => simp [ClassPart.code?, hab, isFlat, itemSet]
  | property name negated => exact hone (.set (itemSet (.property name negated)))
  | builtin kind negated => exact hone (.set (itemSet (.builtin kind negated)))
  | nested cls => rfl
  | intersection operands => rfl

/-- Without operators a class is a union in the grammar with sets too. -/
theorem setClass?_eq_unionClass? {parts : List ClassPart}
    (h : ∀ p ∈ parts, p ≠ .intersection ∧ p ≠ .difference) : setClass? parts = unionClass? parts := by
  unfold setClass?
  split
  next => exact absurd rfl (h .intersection (by simp)).1
  next => exact absurd rfl (h .difference (by simp)).2
  next => rfl

/-- **The parts of the items are read as their set.** -/
theorem content?_itemParts (g : Grammar) (negated : Bool) (h : itemsExpressible items) :
    ({ negated, parts := (items.flatMap itemParts).reverse } : OpenClass).content? g
      = some (itemsSet items) := by
  have hplain : ∀ p ∈ items.flatMap itemParts, p ≠ .intersection ∧ p ≠ .difference := by
    intro p hp
    obtain ⟨i, -, hi⟩ := List.mem_flatMap.1 hp
    cases i <;> simp only [itemParts, List.mem_cons, List.not_mem_nil, or_false] at hi
    case range => rcases hi with rfl | rfl | rfl <;> simp
    all_goals
      subst hi
      simp
  unfold OpenClass.content?
  rw [List.reverse_reverse, setClass?_eq_unionClass? hplain]
  clear hplain
  induction items with
  | nil => split <;> rfl
  | cons i is ih =>
    rw [itemsExpressible, Bool.and_eq_true] at h
    have hrest := hyphen_not_head is
    have ih := ih h.2
    rw [List.flatMap_cons, itemsSet]
    split at ih
    · rw [if_pos ‹_›, unionClass?_itemParts h.1 hrest, ih]
      cases isFlat i <;> rfl
    · rw [if_neg ‹_›, flatClass?_itemParts h.1 hrest, ih]
      cases isFlat i <;> rfl

theorem candidates_itemsSet : ∀ items : List ClassItem,
    (itemsSet items).candidates = [] ∧ (itemsSet items).mayHaveTexts = false
  | [] => ⟨rfl, rfl⟩
  | i :: is => by
    have hrest := candidates_itemsSet is
    have hitem : (itemSet i).candidates = [] ∧ (itemSet i).mayHaveTexts = false := by
      cases i with
      | char | range | nested | intersection => exact ⟨rfl, rfl⟩
      | property name negated =>
        rw [itemSet]
        cases Property.ofText? name.toList <;> cases negated <;> exact ⟨rfl, rfl⟩
      | builtin kind negated => cases kind <;> cases negated <;> exact ⟨rfl, rfl⟩
    rw [itemsSet]
    split
    · simp [Host.CharSet.candidates, Host.CharSet.mayHaveTexts, hitem, hrest]
    · exact hrest

theorem has_signedSet (negated : Bool) (s : Host.CharSet) (c : Char) :
    (signedSet negated s).has id isAsciiWord c = (negated != s.has id isAsciiWord c) := by
  cases negated <;> simp [signedSet, Host.CharSet.has]

theorem has_builtinSet (kind : Builtin) (c : Char) :
    (builtinSet kind).has id isAsciiWord c = kind.has c := by
  cases kind <;> rfl

/-- The set of an item has its members. -/
theorem has_itemSet (hi : i.expressible) (hflat : isFlat i) (c : Char) :
    (itemSet i).has id isAsciiWord c = i.has c := by
  cases i with
  | char d =>
    rw [itemSet, Host.CharSet.has, ClassItem.has, id, ← Bool.decide_and]
    refine decide_eq_decide.2 ⟨fun h => ?_, fun h => h ▸ ⟨le_refl _, le_refl _⟩⟩
    exact Char.toNat_inj.1 (Nat.le_antisymm h.2 h.1)
  | range a b => rfl
  | property name negated =>
    obtain ⟨p, hp⟩ := Option.isSome_iff_exists.1 hi
    rw [itemSet, hp, has_property hp, has_signedSet]
    rfl
  | builtin kind negated =>
    rw [itemSet, has_signedSet, ClassItem.has, has_builtinSet]
  | nested cls => cases hflat
  | intersection operands => cases hflat

/-- Whether a character is in an item that goes inside brackets. -/
def flatHas (items : List ClassItem) (c : Char) : Bool :=
  items.any fun i => isFlat i && i.has c

/-- Whether a character is in an item that does not go inside brackets. -/
def othersHave (items : List ClassItem) (c : Char) : Bool :=
  items.any fun i => !isFlat i && i.has c

theorem has_itemsSet : ∀ {items : List ClassItem}, itemsExpressible items → ∀ c,
    (itemsSet items).has id isAsciiWord c = flatHas items c
  | [], _, _ => rfl
  | i :: is, h, c => by
    rw [itemsExpressible, Bool.and_eq_true] at h
    have hrest := has_itemsSet h.2 c
    rw [flatHas] at *
    rw [itemsSet, List.any_cons]
    cases hflat : isFlat i with
    | true =>
      rw [if_pos rfl, Host.CharSet.has, hrest, has_itemSet h.1 hflat, Bool.true_and]
    | false => rw [if_neg Bool.false_ne_true, hrest, Bool.false_and, Bool.false_or]

theorem ofSet_eq {s : Host.CharSet} (h : s.candidates = []) : Host.Node.ofSet s = .set false s := by
  simp [Host.Node.ofSet, h, Host.Node.ofAlternatives]

/-! ## Modes that ignore case -/

/-- Where one of the modes ignores case, folding keeps the sets of the items. -/
def KeptIn (modes : Mode → Prop) (items : List ClassItem) : Prop :=
  ∀ m, modes m → m.ignoreCase = true → ∀ i ∈ items, (itemSet i).Steady

variable {modes : Mode → Prop}

theorem KeptIn.subset (h : KeptIn modes items) (hsub : others ⊆ items) : KeptIn modes others :=
  fun m hm hcase i hi => h m hm hcase i (hsub hi)

theorem KeptIn.left (h : KeptIn modes (items ++ others)) : KeptIn modes items :=
  h.subset (List.subset_append_left items others)

theorem KeptIn.right (h : KeptIn modes (items ++ others)) : KeptIn modes others :=
  h.subset (List.subset_append_right items others)

/-- Where all modes mind case, there is nothing to be kept. -/
theorem keptIn_minding (items : List ClassItem) : KeptIn (·.ignoreCase = false) items :=
  fun _ hm hcase => absurd (hm.symm.trans hcase) Bool.false_ne_true

theorem steady_signedSet (negated : Bool) (s : Host.CharSet) :
    (signedSet negated s).Steady ↔ s.Steady := by
  cases negated <;> exact Iff.rfl

theorem steady_itemsSet : ∀ {items : List ClassItem},
    (∀ i ∈ flatItemsOf items, (itemSet i).Steady) → (itemsSet items).Steady
  | [], _ => trivial
  | i :: is, h => by
    rw [flatItemsOf, List.forall_mem_append] at h
    have hrest := steady_itemsSet h.2
    rw [itemsSet]
    split
    next hflat =>
      refine ⟨h.1 i ?_, hrest⟩
      cases i with
      | nested | intersection => cases hflat
      | char | range | property | builtin => simp [ClassItem.flatItems]
    next => exact hrest

/-- **Brackets match the members of the flat items, or all other characters.** -/
theorem matchesCharIn_brackets (hs : s.expand = false) (negated : Bool) (h : itemsExpressible items)
    (hkept : KeptIn modes (flatItemsOf items)) :
    ∃ flat, s.bracketText items = .ok flat ∧
      MatchesCharIn modes (classGrammar s.v)
        ('[' :: (if negated then ['^'] else []) ++ flat ++ [']'])
        fun c => negated != flatHas items c := by
  obtain ⟨flat, hflat, hparts⟩ := readsParts_bracketText hs rfl items h
  obtain ⟨hcandidates, htexts⟩ := candidates_itemsSet items
  refine ⟨flat, hflat, ?_⟩
  have hreads := hparts.brackets (content?_itemParts (classGrammar s.v) negated h) htexts
  have hnode : (if negated then .set true (itemsSet items) else Host.Node.ofSet (itemsSet items))
      = Host.Node.set negated (itemsSet items) := by
    cases negated <;> simp [ofSet_eq hcandidates]
  rw [hnode] at hreads
  have hmatches := hreads.matchesCharIn rfl (Node.isCharIn_set negated fun m hm hcase =>
    ⟨classGrammar_isStrict s.v, steady_itemsSet (hkept m hm hcase)⟩)
  have htext : '[' :: (if negated then ['^'] else []) ++ flat ++ [']']
      = '[' :: ((if negated then ['^'] else []) ++ (flat ++ [']'])) := by simp
  rw [htext]
  exact hmatches.congr fun c => by rw [has_itemsSet h]

/-- Any character at all. -/
theorem matchesCharIn_anyText (v : Bool) :
    MatchesCharIn modes (classGrammar v) anyText fun _ => true := by
  have hitems : itemsExpressible CharClass.any.items := rfl
  have hkept : KeptIn modes (flatItemsOf CharClass.any.items) := by
    intro m _ _ i hi
    have hi : i ∈ [.builtin .space false, .builtin .space true] := hi
    simp only [List.mem_cons, List.not_mem_nil, or_false] at hi
    rcases hi with rfl | rfl <;> trivial
  obtain ⟨flat, hflat, hmatches⟩ :=
    matchesCharIn_brackets (s := ⟨v, false, false⟩) rfl false hitems hkept
  cases hflat
  refine hmatches.congr fun c => ?_
  simp [CharClass.any, CharClass.of, CharClass.items, flatHas, isFlat, ClassItem.has]

/-! ## Classes -/

/-- Texts that match one character each, and what they match. -/
def AllMatchChar (modes : Mode → Prop) (g : Grammar) (parts : List (Text × (Char → Bool))) : Prop :=
  ∀ x ∈ parts, MatchesCharIn modes g x.1 x.2

theorem matchesCharIn_unionText : ∀ {parts : List (Text × (Char → Bool))},
    parts ≠ [] → AllMatchChar modes g parts →
    MatchesCharIn modes g (unionText (parts.map (·.1))) fun c => parts.any (·.2 c)
  | [x], _, h => (h x (by simp)).congr fun c => by simp
  | x :: y :: rest, hne, h => by
    have hgroup := matchesCharIn_group (fun x : Text × (Char → Bool) => x.1) (fun x => x.2)
      (x :: y :: rest) hne h
    simpa [unionText] using hgroup

/-- A character in one of the items is in one that is flat or in one that is not. -/
theorem anyHas_eq_or (items : List ClassItem) (c : Char) :
    anyHas items c = (flatHas items c || othersHave items c) := by
  induction items with
  | nil => rfl
  | cons i is ih =>
    rw [anyHas, ih, flatHas, flatHas, othersHave, othersHave, List.any_cons, List.any_cons]
    cases isFlat i <;> cases i.has c <;> simp

theorem othersHave_of_all (h : items.all isFlat) (c : Char) : othersHave items c = false := by
  rw [othersHave, List.any_eq_false]
  intro i hi
  simp [List.all_eq_true.1 h i hi]

theorem flatHas_of_any (h : items.any isFlat = false) (c : Char) : flatHas items c = false := by
  rw [flatHas, List.any_eq_false]
  intro i hi
  simp [List.any_eq_false.1 h i hi]

/-- A class that is not just another class in brackets. -/
theorem classText_eq (h : ∀ inner, negated = false → items ≠ [.nested inner]) {flat : Text}
    {others : List Text} (hflat : s.bracketText items = .ok flat)
    (hothers : classParts s items = .ok others) :
    classText s (.mk negated items ic) = .ok (
      if items.all isFlat then '[' :: (if negated then ['^'] else []) ++ flat ++ [']']
      else
        let parts := if items.any isFlat then ('[' :: flat ++ [']']) :: others else others
        if negated then "(?!".toList ++ unionText parts ++ ')' :: anyText else unionText parts) := by
  rw [classText]
  · rw [hflat, hothers]
    show (if items.all isFlat then Except.ok _ else Except.ok _) = _
    split <;> rfl
  · rintro inner hn hi
    exact h inner hn hi

variable {s : ClassStyle}

/-- A class from its brackets and from the alternatives for what is not flat in it. -/
theorem exists_classText (hs : s.expand = false) (h : itemsExpressible items)
    (hkept : KeptIn modes (flatItemsOf items))
    (hsingle : ∀ inner, negated = false → items ≠ [.nested inner])
    {parts : List (Text × (Char → Bool))} (hparts : classParts s items = .ok (parts.map (·.1)))
    (hall : AllMatchChar modes (classGrammar s.v) parts)
    (hne : items.all isFlat = false → parts ≠ [])
    (hhas : ∀ c, (parts.any (·.2 c)) = othersHave items c) :
    ∃ text, classText s (.mk negated items ic) = .ok text ∧
      MatchesCharIn modes (classGrammar s.v) text (CharClass.mk negated items ic).has := by
  obtain ⟨flat, hflat, hbrackets⟩ := matchesCharIn_brackets hs false h hkept
  refine ⟨_, classText_eq hsingle hflat hparts, ?_⟩
  have hmember : ∀ c, (CharClass.mk negated items ic).has c
      = (negated != (flatHas items c || othersHave items c)) := by
    intro c
    rw [CharClass.has, anyHas_eq_or]
  cases hflats : items.all isFlat with
  | true =>
    obtain ⟨flat', hflat', hsigned⟩ := matchesCharIn_brackets hs negated h hkept
    cases hflat.symm.trans hflat'
    rw [if_pos rfl]
    exact hsigned.congr fun c => by rw [hmember, othersHave_of_all hflats, Bool.or_false]
  | false =>
    rw [if_neg Bool.false_ne_true]
    -- The alternatives match what is in the union of all items.
    have hunion : MatchesCharIn modes (classGrammar s.v)
        (unionText (if items.any isFlat then ('[' :: flat ++ [']']) :: parts.map (·.1)
          else parts.map (·.1)))
        fun c => flatHas items c || othersHave items c := by
      cases hany : items.any isFlat with
      | true =>
        have hfirst : MatchesCharIn modes (classGrammar s.v) ('[' :: flat ++ [']'])
            (flatHas items) :=
          hbrackets.congr fun c => Bool.false_bne _
        have hcons := matchesCharIn_unionText
          (List.cons_ne_nil ('[' :: flat ++ [']'], flatHas items) parts)
          (List.forall_mem_cons.2 ⟨hfirst, hall⟩)
        exact hcons.congr fun c => by rw [List.any_cons, hhas]
      | false =>
        refine (matchesCharIn_unionText (hne hflats) hall).congr fun c => ?_
        rw [hhas, flatHas_of_any hany, Bool.false_or]
    cases negated with
    | true =>
      have hahead := hunion.ahead (matchesCharIn_anyText s.v) true
      have hnot := hahead.congr (q := (CharClass.mk true items ic).has) fun c => by
        rw [hmember, Bool.and_true]
      simpa using hnot
    | false => exact hunion.congr fun c => by rw [hmember, Bool.false_bne]

mutual

/-- **The text of a class matches one character, which has to be a member of the class.** -/
theorem matchesCharIn_classText (hs : s.expand = false) : ∀ k : CharClass, k.expressible →
    KeptIn modes k.flatItems → ∃ text, classText s k = .ok text ∧
      MatchesCharIn modes (classGrammar s.v) text k.has
  | .mk negated items ic, h, hkept => by
    rw [CharClass.flatItems] at hkept
    obtain ⟨parts, hparts, hall, hne, hhas⟩ := matchesCharIn_classParts hs items h hkept
    by_cases hsingle : ∃ inner, negated = false ∧ items = [.nested inner]
    · obtain ⟨inner, rfl, rfl⟩ := hsingle
      rw [CharClass.expressible, itemsExpressible, Bool.and_eq_true] at h
      obtain ⟨text, htext, hmatches⟩ := matchesCharIn_classText hs inner h.1 hkept.left
      refine ⟨text, by rw [classText, htext], hmatches.congr fun c => ?_⟩
      simp [CharClass.has, anyHas, ClassItem.has]
    · exact exists_classText hs h hkept (fun inner hn hi => hsingle ⟨inner, hn, hi⟩) hparts hall
        hne hhas

/-- The alternatives for what is not flat match the members of that. -/
theorem matchesCharIn_classParts (hs : s.expand = false) : ∀ items : List ClassItem,
    itemsExpressible items → KeptIn modes (flatItemsOf items) →
    ∃ parts : List (Text × (Char → Bool)), classParts s items = .ok (parts.map (·.1)) ∧
      AllMatchChar modes (classGrammar s.v) parts ∧ (items.all isFlat = false → parts ≠ []) ∧
      ∀ c, (parts.any (·.2 c)) = othersHave items c
  | [], _, _ => ⟨[], rfl, by simp [AllMatchChar], by simp, fun _ => rfl⟩
  | .nested inner :: is, h, hkept => by
    rw [itemsExpressible, Bool.and_eq_true] at h
    rw [flatItemsOf] at hkept
    obtain ⟨first, hfirst, hmatches⟩ := matchesCharIn_classText hs inner h.1 hkept.left
    obtain ⟨parts, hparts, hall, -, hhas⟩ := matchesCharIn_classParts hs is h.2 hkept.right
    refine ⟨(first, inner.has) :: parts, ?_, ?_, by simp, fun c => ?_⟩
    · rw [classParts, hfirst, hparts]
      rfl
    · exact List.forall_mem_cons.2 ⟨hmatches, hall⟩
    · rw [List.any_cons, hhas, othersHave, othersHave, List.any_cons]
      rfl
  | .intersection (k :: ks) :: is, h, hkept => by
    rw [itemsExpressible, Bool.and_eq_true] at h
    rw [flatItemsOf] at hkept
    obtain ⟨first, hfirst, hmatches⟩ :=
      matchesCharIn_operandsText hs (k :: ks) (by simp) h.1 hkept.left
    obtain ⟨parts, hparts, hall, -, hhas⟩ := matchesCharIn_classParts hs is h.2 hkept.right
    refine ⟨(first, allHave (k :: ks)) :: parts, ?_, ?_, by simp, fun c => ?_⟩
    · rw [classParts, hfirst, hparts]
      rfl
    · exact List.forall_mem_cons.2 ⟨hmatches, hall⟩
    · rw [List.any_cons, hhas, othersHave, othersHave, List.any_cons]
      rfl
  | .char d :: is, h, hkept | .range a b :: is, h, hkept | .property name n :: is, h, hkept
  | .builtin kind n :: is, h, hkept => by
    rw [itemsExpressible, Bool.and_eq_true] at h
    rw [flatItemsOf] at hkept
    obtain ⟨parts, hparts, hall, hne, hhas⟩ := matchesCharIn_classParts hs is h.2 hkept.right
    refine ⟨parts, ?_, hall, hne, fun c => ?_⟩
    · rw [classParts, hparts]
      all_goals simp
    · rw [hhas, othersHave, othersHave, List.any_cons]
      rfl

/-- The operands of an intersection match the characters that they have in common. -/
theorem matchesCharIn_operandsText (hs : s.expand = false) : ∀ ks : List CharClass, ks ≠ [] →
    classesExpressible ks → KeptIn modes (flatItemsOfAll ks) →
    ∃ text, operandsText s ks = .ok text ∧ MatchesCharIn modes (classGrammar s.v) text (allHave ks)
  | [k], _, h, hkept => by
    rw [classesExpressible, Bool.and_eq_true] at h
    rw [flatItemsOfAll] at hkept
    obtain ⟨text, htext, hmatches⟩ := matchesCharIn_classText hs k h.1 hkept.left
    refine ⟨text, by rw [operandsText, htext], hmatches.congr fun c => ?_⟩
    simp [allHave]
  | k :: l :: ks, _, h, hkept => by
    rw [classesExpressible, Bool.and_eq_true] at h
    rw [flatItemsOfAll] at hkept
    obtain ⟨first, hfirst, hmatches⟩ := matchesCharIn_classText hs k h.1 hkept.left
    obtain ⟨rest, hrest, hmatches'⟩ :=
      matchesCharIn_operandsText hs (l :: ks) (by simp) h.2 hkept.right
    refine ⟨"(?=".toList ++ first ++ ')' :: rest, ?_, ?_⟩
    · rw [operandsText, hfirst, hrest]
      rfl
    · have hahead := hmatches.ahead hmatches' false
      have hboth := hahead.congr (q := allHave (k :: l :: ks)) fun c => by
        rw [Bool.false_bne]
        rfl
      simpa using hboth

end

/-- Two signs are one. -/
theorem signs_merge (a b x : Bool) : ((a != b) != x) = (b != (a != x)) := by
  cases a <;> cases b <;> simp

/-- The escape of a set outside brackets. -/
theorem matchesCharIn_set {text : Text} (set : Host.CharSet)
    (hlex : ∀ x : Dialect, x.grammar = g → Lexes x 0 0 text [.set (signedSet negated set)])
    (hset : set.candidates = [])
    (hkept : ∀ m, modes m → m.ignoreCase = true → g.isStrict = true ∧ set.Steady) :
    MatchesCharIn modes g text fun c => negated != set.has id isAsciiWord c := by
  have hcandidates : (signedSet negated set).candidates = [] := by
    cases negated
    · exact hset
    · rfl
  have hreads : Host.Reads g text [⟨.set false (signedSet negated set), true⟩] :=
    reads_token hlex rfl fun names r => by rw [Reading.plainStep, ofSet_eq hcandidates]
  refine (hreads.matchesCharIn rfl (Node.isCharIn_set false fun m hm hcase =>
    ⟨(hkept m hm hcase).1, (steady_signedSet negated set).2 (hkept m hm hcase).2⟩)).congr
      fun c => ?_
  rw [has_signedSet, Bool.false_bne]

/-- **The text of a class as a leaf matches one character, which has to be a member of the class.**
-/
theorem matchesCharIn_classLeaf (hs : s.expand = false) (k : CharClass) (h : k.expressible)
    (hkept : KeptIn modes k.flatItems) :
    ∃ text, classLeaf s k = .ok text ∧ MatchesCharIn modes (classGrammar s.v) text k.has := by
  obtain ⟨negated, items, ic⟩ := k
  rw [classLeaf, if_neg (by simp [hs])]
  split
  next name n heq =>
    cases heq
    rw [CharClass.expressible, itemsExpressible, Bool.and_eq_true] at h
    obtain ⟨p, hp⟩ := Option.isSome_iff_exists.1 h.1
    have hbrace : '\x7d' ∉ name.toList := fun hc => unbracketed_of_ofText? hp _ hc (by decide)
    have hsteady : ∀ m, modes m → m.ignoreCase = true → (Host.CharSet.property p).Steady := by
      intro m hm hcase
      have hset := hkept m hm hcase (.property name n) (by simp [CharClass.flatItems, flatItemsOf,
        ClassItem.flatItems])
      rw [itemSet, hp] at hset
      exact (steady_signedSet n _).1 hset
    refine ⟨_, rfl, (matchesCharIn_set (.property p) (fun x hx => lexes_property
      (by rw [Dialect.isStrict, hx, classGrammar_isStrict]) hbrace hp _ 0) rfl
      fun m hm hcase => ⟨classGrammar_isStrict s.v, hsteady m hm hcase⟩).congr fun c => ?_⟩
    rw [CharClass.has, anyHas, anyHas, has_property hp, Bool.or_false]
    exact signs_merge n negated (p.has c)
  next kind n heq =>
    cases heq
    have hsteady : ∀ m, modes m → m.ignoreCase = true → (builtinSet kind).Steady := by
      intro m hm hcase
      have hset := hkept m hm hcase (.builtin kind n) (by simp [CharClass.flatItems, flatItemsOf,
        ClassItem.flatItems])
      exact (steady_signedSet n _).1 hset
    refine ⟨_, rfl, (matchesCharIn_set (builtinSet kind) (fun x _ => lexes_builtin kind _ 0)
      (by cases kind <;> rfl)
      fun m hm hcase => ⟨classGrammar_isStrict s.v, hsteady m hm hcase⟩).congr fun c => ?_⟩
    rw [CharClass.has, anyHas, anyHas, ClassItem.has, Bool.or_false, has_builtinSet]
    exact signs_merge n negated (kind.has c)
  next => exact matchesCharIn_classText hs (.mk negated items ic) h hkept

theorem matchesChar_classLeaf (hs : s.expand = false) (k : CharClass) (h : k.expressible) :
    ∃ text, classLeaf s k = .ok text ∧ MatchesChar (classGrammar s.v) text k.has :=
  matchesCharIn_classLeaf hs k h (keptIn_minding _)

end Diglot.Emitted
