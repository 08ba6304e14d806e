import Diglot.Proofs.Unicode.PropertyName
import Mathlib.Data.List.TakeWhile

/-!
# Names that differ in case and separators

Names that the tables know are matched loosely: those with the same loose key have the same spelling
for the host. Any other name is spelled from the way in which it is written, and what is left of that
is its key, if it has an equals sign, and the words between its separators. So names with the same
loose key can be spelled differently (`propertyExpression_eq_iff`).
-/

namespace Diglot.Unicode

variable {a b cs name w : List Char} {p : Char → Bool}

/-- The capitalized words of a script name. -/
def scriptWords (name : List Char) : List (List Char) :=
  ((splitBy isSeparator name).filter (!·.isEmpty)).map capitalize

/-- What is left of a name that the tables do not know: the key before an equals sign, without the
blanks around it, and the words. -/
def keptParts (name : List Char) : Option (List Char) × List (List Char) :=
  match name.span (· != '=') with
  | (key, _ :: value) => (some (trim key), scriptWords (trim value))
  | (_, []) => (none, scriptWords name)

/-- The spelling of a name by its key and its words. -/
def spell : Option (List Char) × List (List Char) → List Char
  | (key, words) => key.getD "sc".toList ++ '=' :: ['_'].intercalate words

theorem propertyExpression_of_none (h : canonicalName? name = none) :
    propertyExpression name = spell (keptParts name) := by
  unfold propertyExpression keptParts
  rw [h]
  dsimp only
  obtain ⟨key, _ | ⟨c, value⟩⟩ := name.span (· != '=') <;> rfl

/-! ## Words -/

theorem splitBy_word (h : ∀ c ∈ w, p c = false) : splitBy p w = [w] := by
  induction w with
  | nil => rfl
  | cons c w ih =>
    obtain ⟨hc, hw⟩ := List.forall_mem_cons.1 h
    simp [splitBy, hc, ih hw]

theorem splitBy_append (h : ∀ c ∈ w, p c = false) {d : Char} (hd : p d = true) (cs : List Char) :
    splitBy p (w ++ d :: cs) = w :: splitBy p cs := by
  induction w with
  | nil => simp [splitBy, hd]
  | cons c w ih =>
    obtain ⟨hc, hw⟩ := List.forall_mem_cons.1 h
    simp [splitBy, hc, ih hw]

/-- Words without underscores can be told apart after they have been joined. -/
theorem words_intercalate {ws : List (List Char)} (h : ∀ w ∈ ws, w ≠ [] ∧ '_' ∉ w) :
    (splitBy (· == '_') (['_'].intercalate ws)).filter (!·.isEmpty) = ws := by
  induction ws with
  | nil => rfl
  | cons w ws ih =>
    obtain ⟨⟨hne, hmark⟩, hws⟩ := List.forall_mem_cons.1 h
    have hplain : ∀ c ∈ w, (c == '_') = false := by
      intro c hc
      rw [beq_eq_false_iff_ne]
      rintro rfl
      exact hmark hc
    cases ws with
    | nil => simp [List.intercalate, splitBy_word hplain, hne]
    | cons v ws =>
      have hjoin : ['_'].intercalate (w :: v :: ws) = w ++ '_' :: ['_'].intercalate (v :: ws) := by
        simp [List.intercalate]
      rw [hjoin, splitBy_append hplain rfl, List.filter_cons_of_pos (by simpa using hne), ih hws]

theorem mapCase_ne_nil {expansions : List (Nat × List Nat)} {shifts : List Shift}
    (h : KeepsMarks expansions shifts) (c : Char) : mapCase expansions shifts c ≠ [] := by
  unfold mapCase
  split
  · next ns hlookup =>
    obtain ⟨before, after, hmem, _⟩ := List.lookup_eq_some_iff.mp hlookup
    have hne := List.all_eq_true.mp h.nonempty (c.toNat, ns) (by simp [hmem])
    simpa using hne
  · simp

theorem scriptWords_apart (name : List Char) : ∀ w ∈ scriptWords name, w ≠ [] ∧ '_' ∉ w := by
  intro w hw
  obtain ⟨word, hword, rfl⟩ := List.mem_map.1 hw
  obtain ⟨hmem, hne⟩ := List.mem_filter.1 hword
  constructor
  · cases word with
    | nil => cases hne
    | cons c cs => exact List.append_ne_nil_of_left_ne_nil (mapCase_ne_nil keepsMarks.2 c) _
  · intro hmark
    have hseparator := (mem_of_mem_splitBy hmem (mem_of_mem_capitalize (by decide) hmark)).2
    exact absurd hseparator (by decide)

/-! ## Keys -/

/-- A loose key has an equals sign exactly if the name has one. -/
theorem equals_mem_looseKey (name : List Char) : '=' ∈ looseKey name ↔ '=' ∈ name := by
  constructor
  · intro h
    exact (List.mem_filter.1 (mem_of_mem_lowerText (by decide) h)).1
  · intro h
    refine List.mem_flatMap.2 ⟨'=', List.mem_filter.2 ⟨h, by decide⟩, by decide +kernel⟩

/-- The key is what stands before the first equals sign. -/
theorem keptParts_key (name : List Char) : ((keptParts name).1.isSome ↔ '=' ∈ name) ∧
    ∀ key ∈ (keptParts name).1, '=' ∉ key := by
  have hspan := List.span_eq_takeWhile_dropWhile (p := (· != '=')) name
  unfold keptParts
  split
  next key c value heq =>
    rw [hspan] at heq
    obtain ⟨rfl, hvalue⟩ := Prod.mk.inj heq
    have hc : (c != '=') = false := by
      have hhead := List.head?_dropWhile_not (· != '=') name
      rw [hvalue] at hhead
      simpa using hhead
    refine ⟨iff_of_true rfl ?_, fun key hkey hmem => ?_⟩
    · have hmem : c ∈ name := (List.dropWhile_sublist _).subset (hvalue ▸ List.mem_cons_self)
      rwa [show c = '=' by simpa using hc] at hmem
    · cases hkey
      have hmem := List.mem_takeWhile_imp (mem_of_mem_trim hmem)
      simp at hmem
  next key heq =>
    rw [hspan] at heq
    refine ⟨iff_of_false (by simp) fun hmem => ?_, by simp⟩
    have hall := List.dropWhile_eq_nil_iff.1 (Prod.mk.inj heq).2 '=' hmem
    simp at hall

theorem keptParts_words (name : List Char) : ∀ w ∈ (keptParts name).2, w ≠ [] ∧ '_' ∉ w := by
  unfold keptParts
  split <;> exact scriptWords_apart _

/-- The key and the words can be read off the spelling. -/
theorem spell_inj {x y : Option (List Char) × List (List Char)} (hx : ∀ key ∈ x.1, '=' ∉ key)
    (hy : ∀ key ∈ y.1, '=' ∉ key) (hsome : x.1.isSome = y.1.isSome)
    (hxw : ∀ w ∈ x.2, w ≠ [] ∧ '_' ∉ w) (hyw : ∀ w ∈ y.2, w ≠ [] ∧ '_' ∉ w)
    (h : spell x = spell y) : x = y := by
  obtain ⟨k, ws⟩ := x
  obtain ⟨l, vs⟩ := y
  have htake : ∀ {key : Option (List Char)} {rest : List Char}, (∀ k ∈ key, '=' ∉ k) →
      (key.getD "sc".toList ++ '=' :: rest).takeWhile (· != '=') = key.getD "sc".toList := by
    intro key rest hkey
    rw [List.takeWhile_append_of_pos, List.takeWhile_cons_of_neg (by simp), List.append_nil]
    intro c hc
    cases key with
    | none => exact List.all_eq_true.1 (by decide : ("sc".toList.all (· != '=')) = true) c hc
    | some key =>
      rw [bne_iff_ne]
      rintro rfl
      exact hkey key rfl hc
  have hkeys : k.getD "sc".toList = l.getD "sc".toList := by
    rw [← htake hx, ← htake hy]
    exact congrArg _ h
  have hwords : ws = vs := by
    rw [spell, spell, hkeys] at h
    have hjoined := (List.cons.inj (List.append_cancel_left h)).2
    exact (words_intercalate hxw).symm.trans (hjoined ▸ words_intercalate hyw)
  cases k <;> cases l <;> simp_all

/-- **Names with the same loose key are spelled alike exactly if the tables know them or they have the
same key and the same words.** -/
theorem propertyExpression_eq_iff (h : looseKey a = looseKey b) :
    propertyExpression a = propertyExpression b ↔
      (canonicalName? a).isSome ∨ keptParts a = keptParts b := by
  have hknown : canonicalName? a = canonicalName? b := by rw [canonicalName?, canonicalName?, h]
  cases hs : canonicalName? a with
  | some s =>
    refine iff_of_true ?_ (.inl rfl)
    rw [propertyExpression, propertyExpression, ← hknown, hs]
  | none =>
    have hsome : (keptParts a).1.isSome = (keptParts b).1.isSome := by
      rw [Bool.eq_iff_iff, (keptParts_key a).1, (keptParts_key b).1, ← equals_mem_looseKey a, h,
        equals_mem_looseKey]
    rw [propertyExpression_of_none hs, propertyExpression_of_none (hknown ▸ hs)]
    refine ⟨fun heq => .inr ?_, fun hparts => ?_⟩
    · exact spell_inj (keptParts_key a).2 (keptParts_key b).2 hsome (keptParts_words a)
        (keptParts_words b) heq
    · rw [hparts.resolve_left (by simp)]

theorem propertyExpression_old_italic :
    looseKey "old_italic".toList = looseKey "OLD-Italic".toList ∧
      propertyExpression "old_italic".toList = propertyExpression "OLD-Italic".toList :=
  ⟨by decide +kernel, (propertyExpression_eq_iff (by decide +kernel)).2 (.inr (by decide +kernel))⟩

/-- A script name that is written in one word is another name. -/
theorem propertyExpression_olditalic :
    looseKey "old_italic".toList = looseKey "olditalic".toList ∧
      propertyExpression "old_italic".toList = "sc=Old_Italic".toList ∧
      propertyExpression "olditalic".toList = "sc=Olditalic".toList := by
  decide +kernel

end Diglot.Unicode
