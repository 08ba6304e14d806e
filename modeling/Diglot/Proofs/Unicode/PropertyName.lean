import Diglot.Unicode.PropertyName
import Mathlib.Data.List.TakeDrop

/-!
# Spelling of property names

The host's spelling of a property name has brackets or a closing brace only where the name itself
has them: changing the case of a letter never gives a bracket, and no name in the tables has one.
-/

namespace Diglot.Unicode

variable {a b cs name : List Char} {c : Char} {s : String} {shifts : List Shift}

/-- The characters that may not stand in a property name. -/
def brackets : List Char := ['[', ']', '\x7d']

/-- A text without brackets. -/
def Unbracketed (cs : List Char) : Prop :=
  ∀ c ∈ cs, c ∉ brackets

theorem Unbracketed.append (ha : Unbracketed a) (hb : Unbracketed b) : Unbracketed (a ++ b) := by
  intro c hc
  rcases List.mem_append.mp hc with h | h
  · exact ha c h
  · exact hb c h

theorem Unbracketed.mono (hb : Unbracketed b) (h : ∀ c ∈ a, c ∈ b) : Unbracketed a :=
  fun c hc => hb c (h c hc)

theorem unbracketed_cons (hc : c ∉ brackets) (h : Unbracketed cs) : Unbracketed (c :: cs) := by
  intro d hd
  rcases List.mem_cons.mp hd with rfl | hd
  · exact hc
  · exact h d hd

theorem unbracketed_of_all (h : (cs.all fun c => !brackets.contains c) = true) :
    Unbracketed cs := by
  intro c hc
  simpa using List.all_eq_true.mp h c hc

/-- No byte of a string is one of a bracket. -/
def bytesUnbracketed (s : String) : Bool :=
  s.toByteArray.data.toList.all fun b => !(brackets.flatMap String.utf8EncodeChar).contains b

theorem mem_bytes (hc : c ∈ s.toList) {b : UInt8} (hb : b ∈ String.utf8EncodeChar c) :
    b ∈ s.toByteArray.data.toList := by
  rw [← String.utf8Encode_toList, List.utf8Encode, List.data_toByteArray]
  exact List.mem_flatMap.mpr ⟨c, hc, hb⟩

/-- The tables are checked by their bytes, since the characters of a string have to be decoded. -/
theorem unbracketed_of_bytes (h : bytesUnbracketed s = true) : Unbracketed s.toList := by
  intro c hc hbracket
  obtain ⟨b, hb⟩ := List.exists_mem_of_ne_nil _ (String.utf8EncodeChar_ne_nil (c := c))
  have hout := List.all_eq_true.mp h b (mem_bytes hc hb)
  have hin : b ∈ brackets.flatMap String.utf8EncodeChar := List.mem_flatMap.mpr ⟨c, hbracket, hb⟩
  simp [hin] at hout

/-! ## Letter case -/

/-- Characters that no other character becomes when its case is changed. The last one is the first
character after the surrogates. -/
def marks : List Char := brackets ++ ['_', '=', '\uE000']

/-- No code point of the run is moved to a mark. -/
def Shift.avoidsMarks (s : Shift) : Bool :=
  marks.all fun b => !s.run.contains ((b.toNat : Int) - s.distance).toNat

theorem toNat_ofNat_of_ne {n : Nat} (h : Char.ofNat n ≠ '\x00') : (Char.ofNat n).toNat = n := by
  by_cases hv : n.isValidChar
  · have hn : Char.ofNat n = Char.ofNatAux n hv := dif_pos hv
    exact congrArg Char.toNat hn
  · exact absurd (dif_neg hv) h

theorem shifted?_avoids (hs : shifts.all Shift.avoidsMarks = true) {d : Char}
    (h : shifted? shifts c = some d) : d ∉ marks := by
  intro hd
  unfold shifted? at h
  obtain ⟨s, hfind, rfl⟩ := Option.map_eq_some_iff.mp h
  have havoid := List.all_eq_true.mp hs s (List.mem_of_find?_eq_some hfind)
  have hcontains := List.find?_some hfind
  have hne : Char.ofNat ((c.toNat : Int) + s.distance).toNat ≠ '\x00' := by
    intro hzero
    rw [hzero] at hd
    exact absurd hd (by decide)
  have hcode := toNat_ofNat_of_ne hne
  have hpos : 0 < (Char.ofNat ((c.toNat : Int) + s.distance).toNat).toNat := by
    rw [Nat.pos_iff_ne_zero]
    intro hzero
    exact hne (Char.ext (UInt32.toNat_inj.mp hzero))
  have hb := List.all_eq_true.mp havoid _ hd
  rw [hcode] at hb hpos
  have hback : ((((c.toNat : Int) + s.distance).toNat : Int) - s.distance).toNat = c.toNat := by
    omega
  rw [hback, hcontains] at hb
  cases hb

/-- No character becomes a mark when its case is changed, and none is lost. -/
structure KeepsMarks (expansions : List (Nat × List Nat)) (shifts : List Shift) : Prop where
  apart : (expansions.all fun e => (e.2.map Char.ofNat).all fun c => !marks.contains c) = true
  nonempty : (expansions.all fun e => !e.2.isEmpty) = true
  avoids : shifts.all Shift.avoidsMarks = true

theorem keepsMarks :
    KeepsMarks lowerExpansions lowerShifts ∧ KeepsMarks upperExpansions upperShifts :=
  ⟨⟨by decide +kernel, by decide +kernel, by decide +kernel⟩,
    by decide +kernel, by decide +kernel, by decide +kernel⟩

theorem eq_of_mem_mapCase {expansions : List (Nat × List Nat)} (hk : KeepsMarks expansions shifts)
    {d : Char} (hd : d ∈ marks) (h : d ∈ mapCase expansions shifts c) : c = d := by
  unfold mapCase at h
  split at h
  · next cs hlookup =>
    obtain ⟨before, after, hmem, _⟩ := List.lookup_eq_some_iff.mp hlookup
    have hall := List.all_eq_true.mp hk.apart (c.toNat, cs) (by simp [hmem])
    have hnot := List.all_eq_true.mp hall d h
    simp [hd] at hnot
  · have h : d = (shifted? shifts c).getD c := by simpa using h
    cases hshift : shifted? shifts c with
    | none =>
      rw [hshift] at h
      exact h.symm
    | some e =>
      rw [hshift] at h
      exact absurd hd (h ▸ shifted?_avoids hk.avoids hshift)

theorem eq_of_mem_lower {d : Char} (hd : d ∈ marks) (h : d ∈ lower c) : c = d :=
  eq_of_mem_mapCase keepsMarks.1 hd h

theorem eq_of_mem_upper {d : Char} (hd : d ∈ marks) (h : d ∈ upper c) : c = d :=
  eq_of_mem_mapCase keepsMarks.2 hd h

theorem mem_of_mem_lowerText {d : Char} (hd : d ∈ marks) (h : d ∈ lowerText cs) : d ∈ cs := by
  obtain ⟨c, hc, h⟩ := List.mem_flatMap.mp h
  exact eq_of_mem_lower hd h ▸ hc

theorem mem_of_mem_capitalize {d : Char} (hd : d ∈ marks) (h : d ∈ capitalize cs) : d ∈ cs := by
  cases cs with
  | nil => exact h
  | cons c cs =>
    rcases List.mem_append.mp h with h | h
    · exact eq_of_mem_upper hd h ▸ List.mem_cons_self
    · exact List.mem_cons_of_mem _ (mem_of_mem_lowerText hd h)

/-! ## Names -/

theorem mem_of_mem_splitBy {p : Char → Bool} : ∀ {cs : List Char} {word : List Char} {c : Char},
    word ∈ splitBy p cs → c ∈ word → c ∈ cs ∧ p c = false
  | [], word, c, hw, hc => by simp_all [splitBy]
  | d :: cs, word, c, hw, hc => by
    have hlater : ∀ {w : List Char}, w ∈ splitBy p cs → c ∈ w → c ∈ d :: cs ∧ p c = false :=
      fun hw hc => ((mem_of_mem_splitBy hw hc).imp_left (List.mem_cons_of_mem _))
    rw [splitBy] at hw
    split at hw
    · rcases List.mem_cons.mp hw with rfl | hw
      · simp at hc
      · exact hlater hw hc
    · next hd =>
      split at hw
      · have hword : word = [d] := by simpa using hw
        simp_all
      · next w ws hsplit =>
        rcases List.mem_cons.mp hw with rfl | hw
        · rcases List.mem_cons.mp hc with rfl | hc
          · exact ⟨List.mem_cons_self, by simpa using hd⟩
          · exact hlater (hsplit ▸ List.mem_cons_self) hc
        · exact hlater (hsplit ▸ List.mem_cons_of_mem _ hw) hc

theorem intercalate_unbracketed {texts : List (List Char)} (h : ∀ t ∈ texts, Unbracketed t) :
    Unbracketed (['_'].intercalate texts) := by
  match texts, h with
  | [], _ => simp [List.intercalate, Unbracketed]
  | [t], h => simpa [List.intercalate] using h t (by simp)
  | t :: u :: rest, h =>
    have hrest : Unbracketed (['_'].intercalate (u :: rest)) :=
      intercalate_unbracketed fun x hx => h x (by simp [hx])
    have htext : ['_'].intercalate (t :: u :: rest) = t ++ ('_' :: ['_'].intercalate (u :: rest)) := by
      simp [List.intercalate]
    rw [htext]
    exact (h t (by simp)).append (unbracketed_cons (by decide) hrest)

theorem scriptName_unbracketed (h : Unbracketed name) : Unbracketed (scriptName name) := by
  refine intercalate_unbracketed fun t ht => ?_
  obtain ⟨word, hword, rfl⟩ := List.mem_map.mp ht
  intro c hc hbracket
  have hc := mem_of_mem_capitalize (List.mem_append_left _ hbracket) hc
  exact h c (mem_of_mem_splitBy (List.mem_filter.mp hword).1 hc).1 hbracket

theorem mem_of_mem_trim (h : c ∈ trim cs) : c ∈ cs := by
  rw [trim, List.mem_reverse] at h
  have h := (List.dropWhile_sublist _).subset h
  rw [List.mem_reverse] at h
  exact (List.dropWhile_sublist _).subset h

theorem canonicalName?_unbracketed (h : canonicalName? name = some s) : Unbracketed s.toList := by
  obtain ⟨before, after, hmem, _⟩ := List.lookup_eq_some_iff.mp h
  have hs : (looseKey name, s) ∈ canonicalNames := by simp [hmem]
  have haliases : (propertyAliases.all fun p => bytesUnbracketed p.2) = true := by decide +kernel
  have hnames : propertyNames.all bytesUnbracketed = true := by decide +kernel
  rcases List.mem_append.mp hs with hs | hs
  · obtain ⟨p, hp, heq⟩ := List.mem_map.mp hs
    rw [← (Prod.mk.inj heq).2]
    exact unbracketed_of_bytes (List.all_eq_true.mp haliases p hp)
  · obtain ⟨p, hp, heq⟩ := List.mem_map.mp hs
    rw [← (Prod.mk.inj heq).2]
    exact unbracketed_of_bytes (List.all_eq_true.mp hnames p hp)

/-- **The host's spelling of a name without brackets has none.** -/
theorem propertyExpression_unbracketed (h : Unbracketed name) :
    Unbracketed (propertyExpression name) := by
  unfold propertyExpression
  split
  · next s hs => exact canonicalName?_unbracketed hs
  · have hspan := List.span_eq_takeWhile_dropWhile (p := (· != '=')) name
    split
    · next key c value heq =>
      rw [hspan] at heq
      have hkey : Unbracketed (trim key) := by
        refine h.mono fun d hd => ?_
        have hd := mem_of_mem_trim hd
        rw [← (Prod.mk.inj heq).1] at hd
        exact (List.takeWhile_sublist _).subset hd
      have hvalue : Unbracketed (trim value) := by
        refine h.mono fun d hd => ?_
        have hd := List.mem_cons_of_mem c (mem_of_mem_trim hd)
        rw [← (Prod.mk.inj heq).2] at hd
        exact (List.dropWhile_sublist _).subset hd
      exact hkey.append (unbracketed_cons (by decide) (scriptName_unbracketed hvalue))
    · have hsc : Unbracketed "sc=".toList := unbracketed_of_all rfl
      exact hsc.append (scriptName_unbracketed h)

end Diglot.Unicode
