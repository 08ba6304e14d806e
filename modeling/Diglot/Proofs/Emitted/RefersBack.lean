import Diglot.Proofs.Emitted.Gathering

/-!
# References that refer back

Under strict accuracy the writer refuses a reference to a capture that has not been opened yet and a
reference inside the capture itself. So what it writes for a leaf refers only to captures that have
ended (`follows_leafText`). That is a rule about the order of the text: nothing is said about whether
the capture takes part in a match.
-/

namespace Diglot.Emitted

open Diglot.Core

variable {ps : List Phrase} {t : Text} {targets : List Nat} {p p' : Progress} {n body : Node}
  {name : Option String} {hidden : Bool} {ns : List Node}

/-! ## Mentions -/

/-- What matters about a pattern for its references. -/
inductive Mention where
  /-- A capture opens. -/
  | opening
  /-- The innermost open capture closes. -/
  | closing
  /-- A reference to a capture. -/
  | reference (i : Nat)
  deriving DecidableEq, Repr

/-- How mentions of captures are gathered. -/
def mentioning : Gathering Mention where
  leaf t := match t.kind with
    | .backreference i => [.reference i]
    | _ => []
  group t inside := match t.kind with
    | .captureOpen _ => .opening :: (inside ++ [.closing])
    | _ => inside
  repeated _ inside := inside
  plain _ h := by simp only [h]
  quiet {t} h := by cases hk : t.kind <;> simp_all [Kind.isQuiet]

/-- Every reference comes after the end of the capture that it means, where `opened` captures have
been opened and those of `around` are still open. -/
def RefersBack : (opened : Nat) → (around : List Nat) → List Mention → Prop
  | _, _, [] => True
  | opened, around, .opening :: ms => RefersBack (opened + 1) ((opened + 1) :: around) ms
  | opened, around, .closing :: ms => RefersBack opened around.tail ms
  | opened, around, .reference i :: ms =>
    (0 < i ∧ i ≤ opened ∧ i ∉ around) ∧ RefersBack opened around ms

/-! ## Progress -/

/-- On the way from one progress to another, captures opened and closed and references were written,
and these refer back. -/
structure Follows (p p' : Progress) (ms : List Mention) : Prop where
  around : p'.openCaptures = p.openCaptures
  refers : ∀ later, RefersBack p'.opened p'.openCaptures later →
    RefersBack p.opened p.openCaptures (ms ++ later)

namespace Follows

variable {q r : Progress} {ms ns : List Mention}

/-- Nothing that matters has changed. -/
theorem still (hopened : q.opened = p.opened) (haround : q.openCaptures = p.openCaptures) :
    Follows p q [] where
  around := haround
  refers later h := by rwa [hopened, haround] at h

theorem trans (h : Follows p q ms) (h' : Follows q r ns) : Follows p r (ms ++ ns) where
  around := h'.around.trans h.around
  refers later hlater := by
    rw [List.append_assoc]
    exact h.refers _ (h'.refers _ hlater)

theorem before {b : Bool} (h : Follows { p with afterReference := b } q ms) : Follows p q ms :=
  ⟨h.around, h.refers⟩

/-- A capture around what is written. -/
theorem capture (h : Follows q r ms) (hopened : q.opened = p.opened + 1)
    (haround : q.openCaptures = (p.opened + 1) :: p.openCaptures) :
    Follows p { r with openCaptures := r.openCaptures.tail }
      (.opening :: (ms ++ [.closing])) where
  around := by rw [h.around, haround, List.tail_cons]
  refers later hlater := by
    have hinside := h.refers (.closing :: later) hlater
    rw [hopened, haround] at hinside
    rw [List.cons_append, List.append_assoc]
    exact hinside

theorem references {is : List Nat} (h : ∀ i ∈ is, 0 < i ∧ i ≤ p.opened ∧ i ∉ p.openCaptures)
    (hopened : q.opened = p.opened) (haround : q.openCaptures = p.openCaptures) :
    Follows p q (is.map .reference) where
  around := haround
  refers later hlater := by
    rw [hopened, haround] at hlater
    induction is with
    | nil => exact hlater
    | cons i is ih =>
      obtain ⟨hi, his⟩ := List.forall_mem_cons.1 h
      exact ⟨hi, ih his⟩

end Follows

/-! ## Leaves -/

/-- A reference without a forward one means captures that have been opened. -/
theorem le_of_mem_candidates {n : Numbering} {opened : Nat}
    (h : (candidates n opened targets).2 = false) :
    ∀ i ∈ (candidates n opened targets).1, i ≤ opened := by
  induction targets with
  | nil => simp [candidates]
  | cons target targets ih =>
    simp only [candidates] at h ⊢
    split_ifs at h ⊢ with hempty
    intro i hi
    rcases mem_foldr_insertAscending.1 hi with hi | hi
    · exact of_decide_eq_true (List.mem_filter.1 hi).2
    · exact ih h i hi

/-- A check that is not passed under strict accuracy was not made. -/
theorem eq_false_of_guard {w : Writing} (hs : w.options.strict = true) {α : Type} {c : Bool}
    {what : Approximation} {f : Unit → Write α} {a : α}
    (h : (if c then (do let r ← liftM (w.approximate what); f r) else f ()).run p = .ok (a, p')) :
    c = false := by
  cases c with
  | false => rfl
  | true =>
    rw [if_pos rfl, Writing.approximate, Core.approximate, hs] at h
    cases h

variable {w : Writing}

theorem mentioning_referenceOutline (caseless : Bool) (is : List Nat) :
    mentioning.items (referenceOutline caseless is) = is.map .reference := by
  unfold referenceOutline
  split
  · exact mentioning.items_textOutline ⟨_, quietText_never⟩ caseless
  · next is _ =>
    rw [Gathering.items_choose]
    clear * -
    induction is with
    | nil => rfl
    | cons i is ih =>
      rw [List.map_cons, Gathering.family, ih, Gathering.items_singleton]
      rfl

/-- Under strict accuracy a reference means captures that have been opened and closed. -/
theorem follows_backreferenceText (hs : w.options.strict = true) (hc : w.numbering.Counts)
    (h : (backreferenceText w targets).run p = .ok (t, p')) :
    Follows p p' ((w.numbering.meant p.opened targets).map .reference) := by
  have hstill : p'.opened = p.opened ∧ p'.openCaptures = p.openCaptures := by
    rcases backreferenceText_cases hc h with ⟨-, -, rfl⟩ | ⟨i, -, -, rfl⟩ | ⟨-, rfl, -⟩ <;>
      exact ⟨rfl, rfl⟩
  refine .references ?_ hstill.1 hstill.2
  rw [← reverse_candidates hc]
  unfold backreferenceText at h
  split at h
  · next hempty => simp [List.isEmpty_iff.mp hempty, candidates]
  · obtain ⟨q, _, hget, h⟩ := exists_of_run_bind h
    cases hget
    have hforward := eq_false_of_guard hs h
    have hinside := eq_false_of_guard hs (run_of_guard h)
    intro i hi
    rw [List.mem_reverse] at hi
    obtain ⟨target, -, hindex, -⟩ := mem_candidates.1 hi
    obtain ⟨e, he, -⟩ := Numbering.mem_indices.1 hindex
    refine ⟨(hc.le he).1, le_of_mem_candidates hforward i hi, fun hopen => ?_⟩
    have hany : (candidates w.numbering p.opened targets).1.any p.openCaptures.contains = true :=
      List.any_eq_true.2 ⟨i, hi, List.contains_iff_mem.2 hopen⟩
    exact absurd hinside (by simp only [hany]; decide)

theorem follows_leafText (hs : w.options.strict = true) (hc : w.numbering.Counts) (hleaf : IsLeaf n)
    (hplain : Plain n) {seen : List Heading} {before expand : Bool}
    (h : (leafText w before expand n).run p = .ok (t, p')) (hp : p.opened = seen.length)
    (caseless expand' : Bool) :
    Follows p p' (mentioning.items (leafOutline w seen caseless expand' n)) := by
  cases n with
  | literal c ignoreCase =>
    obtain ⟨-, rfl⟩ := eq_of_run_pure h
    rw [leafOutline, mentioning.items_literal]
    exact .still rfl rfl
  | cls c =>
    obtain ⟨-, rfl⟩ := eq_of_run_lift h
    have hnone : mentioning.items (leafOutline w seen caseless expand' (.cls c)) = [] := by
      rw [Plain] at hplain
      rw [leafOutline]
      split
      next => rfl
      next text htext => exact mentioning.items_textOutline (isQuiet_classLeaf hplain htext) caseless
    rw [hnone]
    exact .still rfl rfl
  | backreference targets ignoreCase =>
    rw [leafText] at h
    split at h
    · cases h
    · rw [leafOutline, mentioning_referenceOutline, ← hp]
      exact follows_backreferenceText hs hc h
  | _ => exact hleaf.elim

/-! ## Captures -/

theorem openCapture_progress {q : Progress} {o : Text}
    (h : (openCapture name hidden).run p = .ok (o, q)) :
    q.opened = p.opened + 1 ∧ q.openCaptures = (p.opened + 1) :: p.openCaptures := by
  obtain ⟨_, _, hget, h⟩ := exists_of_run_bind h
  cases hget
  dsimp only at h
  split at h
  · split at h <;>
    · cases h
      exact ⟨rfl, rfl⟩
  · cases h
    exact ⟨rfl, rfl⟩

end Diglot.Emitted
