import Diglot.Emitted.Writer
import Diglot.Proofs.Simulation

/-!
# Writing under options that refuse less

What can be written under some options can be written without strict accuracy, for a later target and
with or without the groups that are not needed. Captures are opened alike then. If only strictness
differs, or the target and nothing that depends on it, the texts are the same too: `same` says whether
that is so.

A tree that cannot be written has a feature that is not supported, or it has a reference that ignores
case where the rest of the tree does not and that is not in a modifier group. The second can only
happen under strict accuracy (`Refusal`).
-/

namespace Diglot.Emitted

open Diglot.Core Unicode

set_option linter.unusedSectionVars false

variable {same : Prop} {s s' : ClassStyle} {expand expand' : Bool} {n root : Node} {w w' : Writing}
  {E : Error → Prop}

/-- The same, where the same is asked for. -/
def Alike {α : Type} (same : Prop) (a b : α) : Prop :=
  same → a = b

theorem Alike.refl {α : Type} (a : α) : Alike same a a :=
  fun _ => rfl

theorem Alike.map {α β : Type} {a b : α} (h : Alike same a b) (f : α → β) : Alike same (f a) (f b) :=
  fun hs => congrArg f (h hs)

theorem Alike.map₂ {α β γ : Type} {a b : α} {c d : β} (h : Alike same a b) (h' : Alike same c d)
    (f : α → β → γ) : Alike same (f a c) (f b d) :=
  fun hs => by rw [h hs, h' hs]

/-- Approximations are refused only under strict accuracy. -/
theorem refines_approximate (hE : ∀ f, E (.unsupported f)) {strict strict' : Bool}
    (h : strict' → strict) (what : Approximation) :
    Refines E Eq (approximate strict what) (approximate strict' what) := by
  cases strict with
  | true => exact .error (hE _) _
  | false =>
    cases strict' with
    | true => exact absurd (h rfl) Bool.false_ne_true
    | false => exact .ok rfl

/-! ## Classes -/

/-- Whatever is written in the style `s` can be written in the style `s'`. -/
structure ClassStyle.Relaxes (same : Prop) (s s' : ClassStyle) : Prop where
  /-- What `s'` refuses is a case variant that is asked for in the style `s` too. -/
  strict : s'.expand → s'.strict → s.expand ∧ s.strict
  v : Alike same s.v s'.v
  expand : Alike same s.expand s'.expand

section

variable (h : s.Relaxes same s')

include h

theorem alike_escape (c : Char) : Alike same (escapeInClass s.v c) (escapeInClass s'.v c) :=
  h.v.map (escapeInClass · c)

variable (hE : ∀ f, E (.unsupported f))

include hE

/-- What is approximated when case variants are written out. -/
theorem refines_approximate_expand (what : Approximation) :
    Refines E Eq (if s.expand then approximate s.strict what else .ok ())
      (if s'.expand then approximate s'.strict what else .ok ()) := by
  have hcheck : ∀ z : ClassStyle, (if z.expand then approximate z.strict what else .ok ())
      = approximate (z.expand && z.strict) what := by
    intro z
    cases z.expand <;> rfl
  rw [hcheck, hcheck]
  refine refines_approximate hE (fun hs => ?_) what
  rw [Bool.and_eq_true] at hs ⊢
  exact h.strict hs.1 hs.2

theorem refines_variants (a b : Char) : Refines E (Alike same)
    (if s.expand then s.variantsOfRange a b else pure [])
    (if s'.expand then s'.variantsOfRange a b else pure []) := by
  unfold ClassStyle.variantsOfRange
  by_cases hwide : (b < a || widestExpansion < b.toNat - a.toNat) = true
  · -- no variants are written, whether that is an approximation or not
    have hnone : ∀ z : ClassStyle, (if z.expand then (do
          approximate z.strict .caselessRange
          return []) else pure [])
        = (if z.expand then approximate z.strict .caselessRange else .ok ()) >>= fun _ =>
          .ok ([] : List (Char × Char)) := by
      intro z
      cases z.expand <;> rfl
    simp only [hwide, if_true]
    rw [hnone s, hnone s']
    exact (refines_approximate_expand h hE _).bind fun _ _ _ => .ok (.refl _)
  · have hall : ∀ z : ClassStyle, (if z.expand then pure (rangeVariants a b) else pure [])
        = (Except.ok (if z.expand then rangeVariants a b else []) : Except Error _) := by
      intro z
      cases z.expand <;> rfl
    simp only [hwide, Bool.false_eq_true, if_false]
    rw [hall s, hall s']
    exact .ok (h.expand.map fun e : Bool => if e then rangeVariants a b else [])

theorem refines_bracketItem (i : ClassItem) :
    Refines E (Alike same) (s.bracketItem i) (s'.bracketItem i) := by
  cases i with
  | char c =>
    refine .ok ((alike_escape h c).map₂ ?_ (· ++ ·))
    intro hs
    rw [h.v hs, h.expand hs]
  | range a b =>
    have hrange : Alike same s.rangeText s'.rangeText := by
      intro hs
      unfold ClassStyle.rangeText
      rw [h.v hs]
    rw [ClassStyle.bracketItem, ClassStyle.bracketItem]
    refine (refines_variants h hE a b).branch fun vs vs' hvs => .ok fun hs => ?_
    rw [hvs hs, hrange hs, h.v hs]
  | property name negated => exact .ok (.refl _)
  | builtin kind negated => exact .ok (.refl _)
  | nested c => exact .ok (.refl _)
  | intersection cs => exact .ok (.refl _)

theorem refines_bracketText (items : List ClassItem) :
    Refines E (Alike same) (s.bracketText items) (s'.bracketText items) := by
  have hitems : Refines E (Alike same) (items.mapM s.bracketItem) (items.mapM s'.bracketItem) := by
    induction items with
    | nil => exact .ok (.refl _)
    | cons i is ih =>
      rw [List.mapM_cons, List.mapM_cons]
      exact (refines_bracketItem h hE i).bind fun t t' ht =>
        ih.bind fun ts ts' hts => .ok (ht.map₂ hts (· :: ·))
  exact hitems.bind fun ts ts' hts => .ok (hts.map List.flatten)

mutual

theorem refines_classText : ∀ c : CharClass,
    Refines E (Alike same) (classText s c) (classText s' c)
  | .mk negated items ic => by
    rw [classText.eq_def, classText.eq_def]
    split
    next inner _ heq =>
      cases heq
      exact refines_classText inner
    next heq =>
      cases heq
      refine (refines_bracketText h hE items).bind fun flat flat' hflat => ?_
      split
      · refine .ok fun hs => ?_
        rw [hflat hs]
      · refine (refines_classParts items).bind fun others others' hothers => .ok fun hs => ?_
        rw [hflat hs, hothers hs]

theorem refines_classParts :
    ∀ items : List ClassItem, Refines E (Alike same) (classParts s items) (classParts s' items)
  | [] => by
    rw [classParts, classParts]
    exact .ok (.refl _)
  | .nested inner :: items => by
    rw [classParts, classParts]
    exact (refines_classText inner).bind fun t t' ht =>
      (refines_classParts items).bind fun ts ts' hts => .ok (ht.map₂ hts (· :: ·))
  | .intersection [] :: items => by
    rw [classParts, classParts]
    exact refines_classParts items
  | .intersection (c :: cs) :: items => by
    rw [classParts, classParts]
    exact (refines_operandsText (c :: cs)).bind fun t t' ht =>
      (refines_classParts items).bind fun ts ts' hts => .ok (ht.map₂ hts (· :: ·))
  | .char _ :: items | .range _ _ :: items | .property _ _ :: items | .builtin _ _ :: items => by
    rw [classParts, classParts]
    · exact refines_classParts items
    all_goals simp

theorem refines_operandsText :
    ∀ cs : List CharClass, Refines E (Alike same) (operandsText s cs) (operandsText s' cs)
  | [] => by
    rw [operandsText, operandsText]
    exact .ok (.refl _)
  | [c] => by
    rw [operandsText, operandsText]
    exact refines_classText c
  | c :: d :: cs => by
    rw [operandsText, operandsText]
    refine (refines_classText c).bind fun t t' ht =>
      (refines_operandsText (d :: cs)).bind fun ts ts' hts => .ok fun hs => ?_
    rw [ht hs, hts hs]

end

theorem refines_classLeaf (c : CharClass) :
    Refines E (Alike same) (classLeaf s c) (classLeaf s' c) := by
  have htext := refines_classText h hE c
  unfold classLeaf
  cases casedProperty? c with
  | none =>
    simp only [ite_self]
    split
    · exact .ok (.refl _)
    · exact .ok (.refl _)
    · exact htext
  | some name =>
    refine .guard (refines_approximate_expand h hE _) ?_
    split
    · exact .ok (.refl _)
    · exact .ok (.refl _)
    · exact htext

end

/-! ## Leaves and markers -/

/-- Options that refuse less. Modifier groups matter only where case is ignored in parts. -/
structure WriteOptions.Relaxes (same : Prop) (mode : CaseMode) (o o' : WriteOptions) : Prop where
  recursionLimit : o'.recursionLimit = o.recursionLimit
  strict : o'.strict → o.strict
  flagGroups : mode = .mixed → o.target.hasFlagGroups → o'.target.hasFlagGroups
  sameGroups : mode = .mixed → Alike same o.target.hasFlagGroups o'.target.hasFlagGroups
  unicodeSets : Alike same o.target.hasUnicodeSets o'.target.hasUnicodeSets
  verbose : Alike same o.verbose o'.verbose

/-- Whatever `w` writes, `w'` writes too. -/
structure Writing.Relaxes (same : Prop) (w w' : Writing) : Prop where
  options : w.options.Relaxes same w.mode w'.options
  mode : w'.mode = w.mode
  dotAllFlag : w'.dotAllFlag = w.dotAllFlag
  numbering : w'.numbering = w.numbering

/-- Captures have been opened alike. -/
structure Progress.Alike (same : Prop) (p p' : Progress) : Prop where
  opened : p'.opened = p.opened
  openCaptures : p'.openCaptures = p.openCaptures
  names : p'.names = p.names
  afterReference : Emitted.Alike same p.afterReference p'.afterReference

/-- Writing that succeeds with `w` succeeds with `w'`, and its errors satisfy `E`. -/
abbrev WritesAlike {α : Type} (same : Prop) (E : Error → Prop) (x y : Write α) : Prop :=
  RefinesFrom E (Progress.Alike same) (Alike same) x y

/-- Why a tree cannot be written. -/
inductive Refusal (w : Writing) (root : Node) : Error → Prop where
  | unsupported (f : Feature) : Refusal w root (.unsupported f)
  /-- A reference that ignores case has no modifier group. -/
  | caselessReference {targets : List Nat} (hmem : .backreference targets true ∈ root.walk)
      (hstrict : w.options.strict = true) (hmode : w.mode = .mixed)
      (hleaf : w.isCaselessLeaf (.backreference targets true) = false) :
      Refusal w root (.caselessReference w.options.target)

theorem writesAlike_takeAfterReference : WritesAlike same E takeAfterReference takeAfterReference :=
  fun _ _ h => .ok ⟨h.afterReference, ⟨h.opened, h.openCaptures, h.names, .refl _⟩⟩

theorem writesAlike_closeCapture :
    RefinesFrom E (Progress.Alike same) Eq closeCapture closeCapture :=
  fun _ _ h => .ok ⟨rfl, ⟨h.opened, congrArg List.tail h.openCaptures, h.names, h.afterReference⟩⟩

theorem writesAlike_openCapture (name : Option String) (hidden : Bool) :
    RefinesFrom E (Progress.Alike same) Eq (openCapture name hidden) (openCapture name hidden) := by
  refine RefinesFrom.get.bind fun p p' h => ?_
  obtain ⟨hopened, hopen, hnames, hafter⟩ := h
  dsimp only
  rw [hopened, hopen, hnames]
  split
  · split
    · exact (RefinesFrom.set ⟨rfl, rfl, rfl, hafter⟩).bind fun _ _ _ => .pure rfl
    · exact (RefinesFrom.set ⟨rfl, rfl, rfl, hafter⟩).bind fun _ _ _ => .pure rfl
  · exact (RefinesFrom.set ⟨rfl, rfl, rfl, hafter⟩).bind fun _ _ _ => .pure rfl

/-- The text of a leaf, in a modifier group or not. -/
def modified (caseless : Bool) (t : Text) : Text :=
  if caseless then "(?i:".toList ++ t ++ [')'] else t

theorem writeLeaf_eq (w : Writing) (n : Node) : writeLeaf w n = (do
    let after ← takeAfterReference
    let text ← leafText w after (!w.isCaselessLeaf n && w.mode == .mixed) n
    return modified (w.isCaselessLeaf n) text) := by
  unfold writeLeaf
  cases w.isCaselessLeaf n with
  | true => rfl
  | false => simp [modified]

section

variable (h : w.Relaxes same w')

include h

theorem relaxes_classStyle (hexpand : expand' → expand) (hsame : Alike same expand expand') :
    (w.classStyle expand).Relaxes same (w'.classStyle expand') where
  strict he hs := ⟨hexpand he, h.options.strict hs⟩
  v := h.options.unicodeSets
  expand := hsame

section

variable (hE : ∀ f, E (.unsupported f))

include hE

/-- An approximation on one condition. -/
theorem refines_approximate_if (c : Prop) [Decidable c] (what : Approximation) :
    Refines E Eq (if c then w.approximate what else .ok ())
      (if c then w'.approximate what else .ok ()) := by
  split
  · exact refines_approximate hE h.options.strict what
  · exact .ok rfl

theorem writesAlike_backreferenceText (targets : List Nat) :
    WritesAlike same E (backreferenceText w targets) (backreferenceText w' targets) := by
  unfold backreferenceText
  split
  · exact .pure (.refl _)
  refine RefinesFrom.get.bind fun p p' hp => ?_
  rw [h.numbering, hp.opened]
  refine .guard (refines_approximate_if h hE _ _) ?_
  rw [hp.openCaptures]
  refine .guard (refines_approximate_if h hE _ _) ?_
  refine .guard (refines_approximate_if h hE _ _) ?_
  split
  · exact .pure (.refl _)
  · refine (RefinesFrom.set ⟨rfl, rfl, hp.names, .refl _⟩).bind fun _ _ _ => ?_
    exact .pure (.refl _)
  · exact .pure (.refl _)

theorem refines_recursionText (target : Nat) :
    Refines E (Alike same) (recursionText w target) (recursionText w' target) := by
  unfold recursionText
  rw [h.numbering, h.options.recursionLimit]
  split
  · exact .ok (.refl _)
  · split
    · exact .ok (.refl _)
    · exact .error (hE _) _

/-- A leaf is refused for what it is, or for its case if its variants are to be written out. -/
theorem writesAlike_leafText {after after' : Bool} (hafter : Alike same after after')
    (hexpand : expand' → expand) (hsame : Alike same expand expand') (n : Node)
    (hreference : ∀ targets, n = .backreference targets true → expand = true →
      w.options.strict = true → E (.caselessReference w.options.target)) :
    WritesAlike same E (leafText w after expand n) (leafText w' after' expand' n) := by
  cases n with
  | literal c ic =>
    refine .pure fun hs => ?_
    rw [hafter hs, hsame hs]
    unfold literalText
    rw [h.options.unicodeSets hs]
  | cls c =>
    refine .lift (refines_classLeaf (relaxes_classStyle h ?_ (hsame.map (· && c.ignoreCase))) hE c)
    simp only [Bool.and_eq_true]
    exact fun hboth => ⟨hexpand hboth.1, hboth.2⟩
  | backreference targets ic =>
    unfold leafText
    dsimp only
    by_cases hstrict : (expand && ic && w.options.strict) = true
    · rw [if_pos hstrict]
      simp only [Bool.and_eq_true] at hstrict
      obtain ⟨⟨he, rfl⟩, hs⟩ := hstrict
      exact fun _ _ _ => .error (hreference targets rfl he hs) _
    · rw [if_neg hstrict, if_neg]
      · exact writesAlike_backreferenceText h hE targets
      · simp only [Bool.and_eq_true] at hstrict ⊢
        exact fun hall => hstrict ⟨⟨hexpand hall.1.1, hall.1.2⟩, h.options.strict hall.2⟩
  | _ => exact .pure (.refl _)

/-- A leaf without the modifier group that it may stand in. -/
theorem writesAlike_bareLeaf (n : Node) : WritesAlike same E
    (do let after ← takeAfterReference; leafText w after false n)
    (do let after ← takeAfterReference; leafText w' after false n) :=
  writesAlike_takeAfterReference.bind fun _ _ hafter =>
    writesAlike_leafText h hE hafter id (.refl _) n fun _ _ he => absurd he Bool.false_ne_true

end

theorem isCaselessLeaf_of_relaxes (hn : w.isCaselessLeaf n) : w'.isCaselessLeaf n := by
  simp only [Writing.isCaselessLeaf, Writing.usesModifierGroups, Bool.and_eq_true, h.mode] at hn ⊢
  exact ⟨⟨hn.1.1, h.options.flagGroups (eq_of_beq hn.1.1) hn.1.2⟩, hn.2⟩

theorem alike_isCaselessLeaf (n : Node) : Alike same (w.isCaselessLeaf n) (w'.isCaselessLeaf n) := by
  intro hs
  unfold Writing.isCaselessLeaf Writing.usesModifierGroups
  rw [h.mode]
  cases hmode : w.mode == .mixed with
  | false => rfl
  | true => rw [h.options.sameGroups (eq_of_beq hmode) hs]

/-- Leaves that `w` puts into modifier groups have no case variants written out with `w'`. -/
theorem expand_of_relaxes (hn : (!w'.isCaselessLeaf n && w'.mode == .mixed) = true) :
    (!w.isCaselessLeaf n && w.mode == .mixed) = true := by
  simp only [Bool.and_eq_true, Bool.not_eq_true', h.mode] at hn ⊢
  refine ⟨?_, hn.2⟩
  rw [Bool.eq_false_iff]
  intro hcaseless
  rw [isCaselessLeaf_of_relaxes h hcaseless] at hn
  exact Bool.noConfusion hn.1

omit h in
/-- A leaf outside modifier groups is refused for its case. -/
theorem refusal_of_leaf (hn : n ∈ root.walk) (hleaf : w.isCaselessLeaf n = false)
    (hmode : (w.mode == .mixed) = true) : ∀ targets, n = .backreference targets true →
      w.options.strict = true → Refusal w root (.caselessReference w.options.target) := by
  rintro targets rfl hstrict
  exact .caselessReference hn hstrict (eq_of_beq hmode) hleaf

theorem writesAlike_writeLeaf (hn : n ∈ root.walk) :
    WritesAlike same (Refusal w root) (writeLeaf w n) (writeLeaf w' n) := by
  have hcaseless := alike_isCaselessLeaf h n
  rw [writeLeaf_eq, writeLeaf_eq]
  refine writesAlike_takeAfterReference.bind fun after after' hafter => ?_
  refine (writesAlike_leafText h .unsupported hafter (expand_of_relaxes h) ?_ n
    fun targets htargets he => ?_).bind fun t t' ht => ?_
  · rw [h.mode]
    exact hcaseless.map (! · && w.mode == .mixed)
  · simp only [Bool.and_eq_true, Bool.not_eq_true'] at he
    exact refusal_of_leaf hn he.1 he.2 targets htargets
  · exact .pure (hcaseless.map₂ ht modified)

end

/-! ## Trees -/

/-- A group, which may keep its parentheses or lose them. -/
theorem wrapped_eq (wraps : Bool) (x : Write Text) :
    (if wraps then (do
      let _ ← takeAfterReference
      let text ← x
      return grouped text) else x) = (do
    let _ ← (if wraps then takeAfterReference else pure false)
    let text ← x
    return if wraps then grouped text else text) := by
  cases wraps with
  | true => rfl
  | false => simp

theorem writesAlike_take_if {wraps wraps' : Bool} (h : Alike same wraps wraps') : WritesAlike same E
    (if wraps then takeAfterReference else pure false)
    (if wraps' then takeAfterReference else pure false) := by
  intro p p' hp
  by_cases hs : same
  · rw [h hs]
    split
    · exact writesAlike_takeAfterReference p p' hp
    · exact .ok ⟨.refl _, hp⟩
  · have hany : ∀ {α : Type} (a b : α), Alike same a b := fun a b h => absurd h hs
    cases wraps <;> cases wraps' <;>
      exact .ok ⟨hany _ _, hp.opened, hp.openCaptures, hp.names, hany _ _⟩

/-- The text of a part before the text of the parts after it. -/
def joinedParts (inRun caseless : Bool) (n : Node) (first rest : Text) : Text :=
  if caseless then (if inRun then [] else "(?i:".toList) ++ first ++ rest
  else (if inRun then [')'] else []) ++ (if n.isAlternation then grouped first else first) ++ rest

theorem writeParts_cons (w : Writing) (inRun : Bool) (n : Node) (ns : List Node) :
    writeParts w inRun (n :: ns) = (do
      let first ← (if w.isCaselessLeaf n then (do
        let after ← takeAfterReference
        leafText w after false n) else writeNode w n)
      let rest ← writeParts w (w.isCaselessLeaf n) ns
      return joinedParts inRun (w.isCaselessLeaf n) n first rest) := by
  rw [writeParts]
  cases w.isCaselessLeaf n with
  | true =>
    simp only [if_true, bind_assoc]
    rfl
  | false => rfl

/-- Only a leaf can stand in a modifier group. -/
theorem writeNode_of_isCaselessLeaf (v : Writing) (h : w.isCaselessLeaf n) :
    writeNode v n = writeLeaf v n := by
  have hcase : leafCase? n = some true := by
    simp only [Writing.isCaselessLeaf, Bool.and_eq_true, beq_iff_eq] at h
    exact h.2
  cases n with
  | literal c ic => rw [writeNode]
  | cls c => rw [writeNode]
  | backreference targets ic => rw [writeNode]
  | _ => cases hcase

/-- A part may share a modifier group with `w'` while its case variants are written out with `w`. -/
theorem writesAlike_part (h : w.Relaxes same w') (hmem : n.walk ⊆ root.walk)
    (hnode : WritesAlike same (Refusal w root) (writeNode w n) (writeNode w' n)) :
    WritesAlike same (Refusal w root) (if w.isCaselessLeaf n then (do
      let after ← takeAfterReference
      leafText w after false n) else writeNode w n)
    (if w'.isCaselessLeaf n then (do
      let after ← takeAfterReference
      leafText w' after false n) else writeNode w' n) := by
  have hcaseless := alike_isCaselessLeaf h n
  by_cases hn : w.isCaselessLeaf n = true
  · rw [if_pos hn, if_pos (isCaselessLeaf_of_relaxes h hn)]
    exact writesAlike_bareLeaf h .unsupported n
  by_cases hn' : w'.isCaselessLeaf n = true
  · have hdiffer : ¬ same := fun hs => hn ((hcaseless hs).trans hn')
    rw [if_neg hn, if_pos hn', writeNode_of_isCaselessLeaf w hn', writeLeaf]
    refine writesAlike_takeAfterReference.bind fun after after' hafter => ?_
    rw [if_neg hn]
    refine writesAlike_leafText h .unsupported hafter (fun he => absurd he Bool.false_ne_true)
      (fun hs => absurd hs hdiffer) n fun targets htargets hmode => ?_
    have hself : n ∈ n.walk := by cases n <;> exact List.mem_cons_self
    exact refusal_of_leaf (hmem hself) (Bool.eq_false_iff.2 hn) hmode targets htargets
  · rw [if_neg hn, if_neg hn']
    exact hnode

section

variable (h : w.Relaxes same w')

include h

mutual

theorem writesAlike_writeNode (n : Node) (hn : n.walk ⊆ root.walk) :
    WritesAlike same (Refusal w root) (writeNode w n) (writeNode w' n) := by
  cases n with
  | empty =>
    rw [writeNode, writeNode]
    exact .pure (.refl _)
  | sequence ns =>
    rw [writeNode, writeNode]
    exact writesAlike_writeParts (.refl _) ns (List.subset_of_cons_subset hn)
  | group body =>
    have hwraps : Alike same (w.wrapsGroup body) (w'.wrapsGroup body) :=
      h.options.verbose.map (· || body.isAlternation)
    rw [writeNode, writeNode, wrapped_eq, wrapped_eq]
    refine (writesAlike_take_if hwraps).bind fun _ _ _ => ?_
    refine (writesAlike_writeNode body (List.subset_of_cons_subset hn)).bind fun t t' ht => ?_
    exact .pure (hwraps.map₂ ht fun wraps t => if wraps then grouped t else t)
  | literal | cls | backreference =>
    rw [writeNode, writeNode]
    exact writesAlike_writeLeaf h (hn List.mem_cons_self)
  | dot all =>
    rw [writeNode, writeNode]
    refine writesAlike_takeAfterReference.bind fun _ _ _ => .pure fun _ => ?_
    unfold dotText
    rw [h.dotAllFlag]
  | alternation ns =>
    rw [writeNode, writeNode]
    refine writesAlike_takeAfterReference.bind fun _ _ _ => ?_
    exact (writesAlike_writeAll ns (List.subset_of_cons_subset hn)).bind fun ts ts' hts =>
      .pure (hts.map (['|'].intercalate ·))
  | capture _ name hidden _ body =>
    rw [writeNode, writeNode]
    refine writesAlike_takeAfterReference.bind fun _ _ _ => ?_
    refine (writesAlike_openCapture name hidden).bind ?_
    rintro opener _ rfl
    refine (writesAlike_writeNode body (List.subset_of_cons_subset hn)).bind fun t t' ht => ?_
    exact writesAlike_closeCapture.bind fun _ _ _ => .pure (ht.map (opener ++ · ++ [')']))
  | atomic body =>
    rw [writeNode, writeNode]
    refine writesAlike_takeAfterReference.bind fun _ _ _ => ?_
    exact (writesAlike_writeNode body (List.subset_of_cons_subset hn)).bind fun t t' ht =>
      .pure (ht.map ("(?>".toList ++ · ++ [')']))
  | look l body =>
    rw [writeNode, writeNode]
    refine writesAlike_takeAfterReference.bind fun _ _ _ => ?_
    exact (writesAlike_writeNode body (List.subset_of_cons_subset hn)).bind fun t t' ht =>
      .pure (ht.map (lookText l ++ · ++ [')']))
  | repeated body q =>
    rw [writeNode, writeNode]
    refine writesAlike_takeAfterReference.bind fun after after' hafter => ?_
    refine (writesAlike_writeNode body (List.subset_of_cons_subset hn)).bind fun t t' ht => ?_
    exact writesAlike_takeAfterReference.bind fun _ _ _ =>
      .pure (ht.map₂ hafter (repeatedText · q ·))
  | assertion a =>
    rw [writeNode, writeNode]
    exact writesAlike_takeAfterReference.bind fun _ _ _ => .pure (.refl _)
  | recursion target =>
    rw [writeNode_recursion, writeNode_recursion]
    exact writesAlike_takeAfterReference.bind fun _ _ _ =>
      .lift (refines_recursionText h .unsupported target)

theorem writesAlike_writeAll : ∀ ns : List Node, Node.walkAll ns ⊆ root.walk →
    WritesAlike same (Refusal w root) (writeAll w ns) (writeAll w' ns)
  | [], _ => by
    rw [writeAll, writeAll]
    exact .pure (.refl _)
  | n :: ns, hn => by
    rw [Node.walkAll, List.append_subset] at hn
    rw [writeAll, writeAll]
    exact (writesAlike_writeNode n hn.1).bind fun t t' ht =>
      (writesAlike_writeAll ns hn.2).bind fun ts ts' hts => .pure (ht.map₂ hts (· :: ·))

theorem writesAlike_writeParts {inRun inRun' : Bool} (hrun : Alike same inRun inRun') :
    ∀ ns : List Node, Node.walkAll ns ⊆ root.walk →
      WritesAlike same (Refusal w root) (writeParts w inRun ns) (writeParts w' inRun' ns)
  | [], _ => by
    rw [writeParts, writeParts]
    exact .pure (hrun.map fun r : Bool => if r then [')'] else [])
  | n :: ns, hn => by
    rw [Node.walkAll, List.append_subset] at hn
    rw [writeParts_cons, writeParts_cons]
    have hcaseless := alike_isCaselessLeaf h n
    refine (writesAlike_part h hn.1 (writesAlike_writeNode n hn.1)).bind fun t t' ht => ?_
    refine (writesAlike_writeParts hcaseless ns hn.2).bind fun ts ts' hts => .pure fun hs => ?_
    rw [hrun hs, hcaseless hs, ht hs, hts hs]

end

end

/-! ## Patterns -/

theorem refines_writePattern {o o' : WriteOptions} (h : o.Relaxes same (caseMode root) o') :
    Refines (Refusal ⟨o, caseMode root, allDotsMatchNewline root, .of root⟩ root) (Alike same)
      (writePattern o root) (writePattern o' root) := by
  have hw : Writing.Relaxes same ⟨o, caseMode root, allDotsMatchNewline root, .of root⟩
      ⟨o', caseMode root, allDotsMatchNewline root, .of root⟩ :=
    ⟨h, rfl, rfl, rfl⟩
  have hstart : Progress.Alike same {} {} := ⟨rfl, rfl, rfl, .refl _⟩
  refine ((writesAlike_writeNode hw root (List.Subset.refl _)).run' hstart).bind fun t t' ht => .ok
    fun hs => ?_
  rw [ht hs, h.unicodeSets hs]

/-- **What a pattern cannot be written for.** -/
theorem fails_writePattern (o : WriteOptions) (root : Node) : Fails
    (Refusal ⟨o, caseMode root, allDotsMatchNewline root, .of root⟩ root) (writePattern o root) := by
  have hsame : o.Relaxes True (caseMode root) o :=
    ⟨rfl, id, fun _ => id, fun _ => .refl _, .refl _, .refl _⟩
  exact (refines_writePattern hsame).fails

end Diglot.Emitted
