import Diglot.Proofs.Emitted.Rereading
import Diglot.Proofs.Reduction.Origins

/-!
# What unfolding gives

Unfolding the atomic groups of a pattern changes the numbers of its captures, and nothing else that
is said of them: names, references, hidden captures and transfers go over to the new numbers
(`unfoldAtomic_exact`). There is one thing that can go wrong. A question mark that follows the
opener of an atomic group becomes a part of the parenthesis that is added (`unfolded_question`).
-/

namespace Diglot.Reduction

open Emitted

variable {t : Token} {ts : List Token} {us : List (Token × Bool)} {f : Nat → Nat} {c j : Nat}
  {order : List CaptureKey} {follow : List Char} {l : CaptureLayout}

/-! ## Unfolded tokens -/

/-- What comes in the place of the opener of an atomic group. -/
def atomicOpening : List (Token × Bool) :=
  [(groupToken, true), (aheadToken, true), (captureToken none, true)]

/-- What comes in the place of the parenthesis that closes an atomic group, if its capture has the
number `i`. -/
def atomicClosing (i : Nat) : List (Token × Bool) :=
  [(closeToken, true), (closeToken, true), (referenceToken i, true), (closeToken, true)]

/-- The tokens `us` are the tokens `ts` with their atomic groups unfolded, if `c` captures open
before `us`. What was introduced is marked with `true`. A reference `i` of the pattern becomes `f
i`, and an introduced one is to the capture that its own group opens. -/
inductive UnfoldedAs (f : Nat → Nat) : Nat → List Token → List (Token × Bool) → Prop where
  | nil (c : Nat) : UnfoldedAs f c [] []
  | plain {c : Nat} {t : Token} {ts : List Token} {us : List (Token × Bool)}
    (ho : t.kind.isOpen = false) (hc : t.kind ≠ .close) (hr : t.isReference = false)
    (h : UnfoldedAs f c ts us) : UnfoldedAs f c (t :: ts) ((t, false) :: us)
  | reference {c i : Nat} {t : Token} {ts : List Token} {us : List (Token × Bool)}
    (hk : t.kind = .backreference i) (h : UnfoldedAs f c ts us) :
    UnfoldedAs f c (t :: ts) ((referenceToken (f i), false) :: us)
  | group {c : Nat} {opener closer : Token} {body rest : List Token}
    {body' rest' : List (Token × Bool)} (ho : opener.kind.isOpen) (ha : opener.kind ≠ .atomicOpen)
    (hc : closer.kind = .close) (hbody : UnfoldedAs f (c + captureCount [opener]) body body')
    (hrest : UnfoldedAs f (c + captureCount [opener] + captureCount (body'.map (·.1))) rest rest') :
    UnfoldedAs f c (opener :: (body ++ closer :: rest))
      ((opener, false) :: (body' ++ (closer, false) :: rest'))
  | atomic {c : Nat} {opener closer : Token} {body rest : List Token}
    {body' rest' : List (Token × Bool)} (ho : opener.kind = .atomicOpen) (hc : closer.kind = .close)
    (hbody : UnfoldedAs f (c + 1) body body')
    (hrest : UnfoldedAs f (c + 1 + captureCount (body'.map (·.1))) rest rest') :
    UnfoldedAs f c (opener :: (body ++ closer :: rest))
      (atomicOpening ++ (body' ++ (atomicClosing (c + 1) ++ rest')))

/-! ## Where captures are added -/

theorem unfoldKeys_append (c n : Nat) (ts us : List Token) : unfoldKeys c n (ts ++ us)
    = unfoldKeys c n ts ++ unfoldKeys (c + captureCount ts) (n + atomicCount ts) us := by
  fun_induction unfoldKeys c n ts with
  | case1 => rfl
  | case2 c n t ts name hk ih =>
    have hcounts := counts_capture hk ts
    rw [List.cons_append, unfoldKeys_capture hk, ih, hcounts.1, hcounts.2, List.cons_append,
      Nat.add_assoc]
  | case3 c n t ts hk ih =>
    have hcounts := counts_atomic hk ts
    rw [List.cons_append, unfoldKeys_atomic hk, ih, hcounts.1, hcounts.2, List.cons_append,
      Nat.add_assoc]
  | case4 c n t ts hc ha ih =>
    have hcounts := counts_other (captureName?_eq_none hc) ha ts
    rw [List.cons_append, unfoldKeys_other (captureName?_eq_none hc) ha, ih, hcounts.1, hcounts.2]

theorem length_unfoldKeys (c n : Nat) (ts : List Token) :
    (unfoldKeys c n ts).length = captureCount ts + atomicCount ts := by
  fun_induction unfoldKeys c n ts with
  | case1 => rfl
  | case2 c n t ts name hk ih =>
    have hcounts := counts_capture hk ts
    rw [List.length_cons, ih]
    omega
  | case3 c n t ts hk ih =>
    have hcounts := counts_atomic hk ts
    rw [List.length_cons, ih]
    omega
  | case4 c n t ts hc ha ih =>
    have hcounts := counts_other (captureName?_eq_none hc) ha ts
    omega

/-- With `c` captures opened and `n` added, the order goes on with the captures of `ts`. -/
def Continues (order : List CaptureKey) (c n : Nat) (ts : List Token) : Prop :=
  ∃ more, order.drop (c + n) = unfoldKeys c n ts ++ more

section

variable {n : Nat}

theorem Continues.append {us : List Token} (h : Continues order c n (ts ++ us)) :
    Continues order c n ts ∧ Continues order (c + captureCount ts) (n + atomicCount ts) us := by
  obtain ⟨more, h⟩ := h
  rw [unfoldKeys_append, List.append_assoc] at h
  refine ⟨⟨_, h⟩, more, ?_⟩
  have hindex : c + captureCount ts + (n + atomicCount ts)
      = c + n + (unfoldKeys c n ts).length := by
    rw [length_unfoldKeys]
    omega
  rw [hindex, ← List.drop_drop, h, List.drop_left]

theorem Continues.tail (h : Continues order c n (t :: ts)) :
    Continues order (c + captureCount [t]) (n + atomicCount [t]) ts := by
  rw [← List.singleton_append] at h
  exact h.append.2

/-- The number of a capture that is added: all that have opened come before it. -/
theorem Continues.numberOf? (h : Continues order c n (t :: ts)) (hk : t.kind = .atomicOpen)
    (hn : order.Nodup) : numberOf? order (.injected n) = some (c + n + 1) := by
  obtain ⟨more, h⟩ := h
  rw [unfoldKeys_atomic hk, List.cons_append] at h
  refine numberOf?_eq_some hn ?_
  rw [← Nat.add_zero (c + n), ← List.getElem?_drop, h]
  rfl

end

/-! ## Taking balanced tokens apart -/

/-- Whether the token opens an atomic group. -/
def opensAtomic (t : Token) : Bool := t.kind == .atomicOpen

theorem captureName?_of_close (h : t.kind = .close) : t.captureName? = none := by
  rw [Token.captureName?, h]

/-- The unfolded pattern has the captures of the pattern, and one for each atomic group. -/
theorem UnfoldedAs.captureCount_eq (h : UnfoldedAs f c ts us) :
    captureCount (us.map (·.1)) = captureCount ts + atomicCount ts := by
  induction h with
  | nil => rfl
  | @plain c t ts us ho hc hr _ ih =>
    obtain ⟨hname, ha⟩ := not_capture_of_not_open ho
    have hcounts := counts_other hname ha ts
    have hout := counts_other hname ha (us.map (·.1))
    show captureCount (t :: us.map (·.1)) = _
    omega
  | @reference c i t ts us hk _ ih =>
    have hcounts := counts_other (t := t) (by rw [Token.captureName?, hk]) (by simp [hk]) ts
    have hout := counts_other (t := referenceToken (f i)) rfl (by simp [referenceToken])
      (us.map (·.1))
    rw [List.map_cons, hout.1]
    omega
  | @group c opener closer body rest body' rest' ho ha hc _ _ ihbody ihrest =>
    have hclose := captureName?_of_close hc
    simp only [List.map_cons, List.map_append, captureCount_cons, captureCount_append,
      atomicCount_cons, atomicCount_append, hclose, hc, if_neg ha]
    simp
    omega
  | @atomic c opener closer body rest body' rest' ho hc _ _ ihbody ihrest =>
    have hclose := captureName?_of_close hc
    have hopen : opener.captureName? = none := by rw [Token.captureName?, ho]
    have hopening : captureCount (atomicOpening.map (·.1)) = 1 := rfl
    have hclosing : captureCount ((atomicClosing (c + 1)).map (·.1)) = 0 := rfl
    simp only [List.map_append, captureCount_cons, captureCount_append, atomicCount_cons,
      atomicCount_append, hclose, hopen, hc, ho, hopening, hclosing]
    simp
    omega

/-- What has been found of tokens: their unfolding, its pieces, and that it can take their place. -/
structure Takes (order : List CaptureKey) (size : Nat) (u : Unfolding) (follow : List Char)
    (ts : List Token) (us : List (Token × Bool)) : Prop where
  unfolded : UnfoldedAs (fun i => referenceNumber order (.existing i 0))
    (u.captures + u.injected) ts us
  unfolds : Unfolds order size u (u.after ts) ts (us.map (·.1))
  renders : Renders ts (us.map (·.1)) follow

namespace Takes

variable {size : Nat} {u : Unfolding}

theorem nil : Takes order size u follow [] [] where
  unfolded := .nil _
  unfolds := .nil
  renders := .nil

/-- A token that neither opens nor closes a group. -/
theorem plain (ho : t.kind.isOpen = false) (hc : t.kind ≠ .close) (hreads : Reads (t :: ts) follow)
    (hnumber : ∀ i, t.kind = .backreference i → 0 < referenceNumber order (.existing i 0) ∧ referenceNumber order (.existing i 0) < 2 ^ 64)
    (h : Takes order size u follow ts us) :
    Takes order size u follow (t :: ts) ((shiftToken order t, false) :: us) := by
  obtain ⟨hname, ha⟩ := not_capture_of_not_open ho
  have hafter := u.after_cons hname ha ts
  cases hr : t.isReference with
  | true =>
    obtain ⟨i, hk⟩ := Token.isReference_iff.1 hr
    have hshift : shiftToken order t = referenceToken (referenceNumber order (.existing i 0)) :=
      relabel_reference hk
    refine ⟨hshift ▸ .reference hk h.unfolded, ?_, ?_⟩
    · rw [hafter]
      exact (unfolds_leaf u (by rw [hk]; rfl)).append h.unfolds
    · rw [hshift]
      exact (renders_reference hreads.1 hk (hnumber i hk).1 (hnumber i hk).2).append h.renders
        hreads.2
  | false =>
    rw [shiftToken, relabel_other hname hr]
    refine ⟨.plain ho hc hr h.unfolded, ?_, (renders_same hreads.1).append h.renders hreads.2⟩
    rw [hafter]
    exact (unfolds_text u ho hc hr).append h.unfolds

variable {opener closer : Token} {body rest : List Token} {body' rest' : List (Token × Bool)}

/-- A group that is not atomic. -/
theorem group (ho : opener.kind.isOpen) (ha : opener.kind ≠ .atomicOpen) (hc : closer.kind = .close)
    (hreads : Reads (opener :: (body ++ closer :: rest)) follow)
    (hbody : Takes order size (u.inside opener) (textOf (closer :: rest) ++ follow) body body')
    (hrest : Takes order size { (u.inside opener).after body with stack := u.stack } follow rest
      rest') :
    Takes order size u follow (opener :: (body ++ closer :: rest))
      ((opener, false) :: (body' ++ (closer, false) :: rest')) := by
  obtain ⟨hopener, hinner⟩ := hreads
  obtain ⟨hreadsBody, hcloser, hreadsRest⟩ := reads_append.1 hinner
  obtain rfl := hcloser.eq_closeToken hc
  have hshift : shiftToken order opener = opener := by
    rcases relabel_cases id (fun i => referenceNumber order (.existing i 0)) opener with
      ⟨title, hk, h⟩ | ⟨i, hk, -⟩ | ⟨-, -, h⟩
    · rw [shiftToken, h, (hopener.eq_captureToken hk).1]
      rfl
    · rw [hk] at ho
      cases ho
    · exact h
  refine ⟨.group ho ha rfl ?_ ?_, ?_, ?_⟩
  · rw [Nat.add_right_comm]
    exact hbody.unfolded
  · have hindex : u.captures + u.injected + captureCount [opener]
        + (captureCount body + atomicCount body)
        = u.captures + captureCount [opener] + captureCount body
          + (u.injected + atomicCount body) := by
      omega
    rw [hbody.unfolded.captureCount_eq, hindex]
    exact hrest.unfolded
  · have hopen : Unfolds order size u (u.inside opener) [opener] [shiftToken order opener] :=
      unfolds_open u ho ha
    rw [hshift] at hopen
    have hunfolds := hopen.append (hbody.unfolds.append
      ((unfolds_close ((u.inside opener).after body) rfl).append hrest.unfolds))
    rw [u.after_group ha]
    simpa using hunfolds
  · have hlast := (renders_same hcloser).append hrest.renders hreadsRest
    have hinside := hbody.renders.append hlast ⟨hcloser, hreadsRest⟩
    simpa using (renders_same hopener).append hinside hinner

/-- An atomic group, whose capture is the next one. -/
theorem atomic (ho : opener.kind = .atomicOpen) (hc : closer.kind = .close)
    (hreads : Reads (opener :: (body ++ closer :: rest)) follow)
    (hquestion : (textOf (body ++ closer :: rest) ++ follow).head? ≠ some '?')
    (hnumber : numberOf? order (.injected u.injected) = some (u.captures + u.injected + 1))
    (hlength : order.length < 2 ^ 64)
    (hbody : Takes order size u.insideAtomic (textOf (closer :: rest) ++ follow) body body')
    (hrest : Takes order size { u.insideAtomic.after body with stack := u.stack } follow rest
      rest') :
    Takes order size u follow (opener :: (body ++ closer :: rest))
      (atomicOpening ++ (body' ++ (atomicClosing (u.captures + u.injected + 1) ++ rest'))) := by
  obtain ⟨hopener, hinner⟩ := hreads
  obtain ⟨hreadsBody, hcloser, hreadsRest⟩ := reads_append.1 hinner
  obtain rfl := hcloser.eq_closeToken hc
  refine ⟨.atomic ho rfl hbody.unfolded ?_, ?_, ?_⟩
  · have hindex : u.captures + u.injected + 1 + (captureCount body + atomicCount body)
        = u.captures + captureCount body + (u.injected + 1 + atomicCount body) := by
      omega
    rw [hbody.unfolded.captureCount_eq, hindex]
    exact hrest.unfolded
  · have hopen : Unfolds order size u u.insideAtomic [opener] (atomicOpening.map (·.1)) :=
      unfolds_openAtomic u ho
    have hclose : Unfolds order size (u.insideAtomic.after body)
        { u.insideAtomic.after body with stack := u.stack } [closeToken]
        [closeToken, closeToken, referenceToken (referenceNumber order (.injected u.injected)),
          closeToken] :=
      unfolds_closeAtomic (u.insideAtomic.after body) rfl
    rw [referenceNumber_eq hnumber] at hclose
    have hunfolds := hopen.append (hbody.unfolds.append (hclose.append hrest.unfolds))
    rw [u.after_atomic ho]
    simpa [atomicClosing] using hunfolds
  · have hopening : Renders [opener] (atomicOpening.map (·.1))
        (textOf (body ++ closeToken :: rest) ++ follow) :=
      .of_breaks ⟨'(', by decide, _, rfl⟩ fun z hz =>
        ⟨readsBefore_groupToken _, sound_look _ _ fun _ _ => rfl, readsBefore_capture hquestion hz,
          trivial⟩
    have hclosing : Renders [closeToken] ((atomicClosing (u.captures + u.injected + 1)).map (·.1))
        (textOf rest ++ follow) := by
      have hle := (numberOf?_le hnumber).2
      refine .of_breaks ⟨')', by decide, _, rfl⟩ fun z hz =>
        ⟨readsBefore_closeToken _, readsBefore_closeToken _, ?_, readsBefore_closeToken _, trivial⟩
      refine sound_reference (by omega) (by omega) _ fun c hc => ?_
      cases hc
      rfl
    have hlast := hclosing.append hrest.renders hreadsRest
    have hinside := hbody.renders.append hlast ⟨hcloser, hreadsRest⟩
    simpa using hopening.append hinside hinner

end Takes

/-- A closing parenthesis opens nothing, so the order goes on after it. -/
theorem Continues.body {n : Nat} {body rest : List Token} {closer : Token}
    (h : Continues order c n (body ++ closer :: rest)) (hc : closer.kind = .close) :
    Continues order c n body ∧
      Continues order (c + captureCount body) (n + atomicCount body) rest := by
  obtain ⟨hbody, more, hrest⟩ := h.append
  refine ⟨hbody, more, ?_⟩
  rwa [unfoldKeys_other (captureName?_of_close hc) (by simp [hc])] at hrest

/-- **Balanced tokens can be unfolded.** -/
theorem exists_takes (hnodup : order.Nodup) (hlength : order.length < 2 ^ 64) (size : Nat)
    (hb : Balanced ts) (u : Unfolding) (hreads : Reads ts follow)
    (hquestion : Unquestioned opensAtomic ts follow)
    (hkeys : Continues order u.captures u.injected ts)
    (hkept : ∀ t ∈ ts, ∀ i, t.kind = .backreference i → .existing i 0 ∈ order) :
    ∃ us, Takes order size u follow ts us := by
  induction hb generalizing u follow with
  | nil => exact ⟨[], .nil⟩
  | @plain t ts ho hc _ ih =>
    obtain ⟨hname, ha⟩ := not_capture_of_not_open ho
    rw [List.forall_mem_cons] at hkept
    obtain ⟨more, hmore⟩ := hkeys
    rw [unfoldKeys_other hname ha] at hmore
    obtain ⟨us, hus⟩ := ih u hreads.2 hquestion.2 ⟨more, hmore⟩ hkept.2
    refine ⟨_, hus.plain ho hc hreads fun i hk => ?_⟩
    obtain ⟨hpos, hle⟩ := referenceNumber_le (c := 0) (hkept.1 i hk)
    exact ⟨hpos, by omega⟩
  | @group opener closer body rest ho hc _ _ ihbody ihrest =>
    obtain ⟨hreadsBody, -, hreadsRest⟩ := reads_append.1 hreads.2
    obtain ⟨hquestionBody, -, hquestionRest⟩ := unquestioned_append.1 hquestion.2
    simp only [List.forall_mem_cons, List.forall_mem_append] at hkept
    have hinside := hkeys.tail
    -- the capture of an atomic group is numbered before those in its body
    by_cases ha : opener.kind = .atomicOpen
    · rw [(counts_atomic ha []).1, (counts_atomic ha []).2] at hinside
      obtain ⟨hkeysBody, hkeysRest⟩ := hinside.body hc
      obtain ⟨body', hbody⟩ := ihbody u.insideAtomic hreadsBody hquestionBody hkeysBody hkept.2.1
      obtain ⟨rest', hrest⟩ := ihrest { u.insideAtomic.after body with stack := u.stack } hreadsRest
        hquestionRest hkeysRest hkept.2.2.2
      exact ⟨_, .atomic ha hc hreads (hquestion.1 (by simp [opensAtomic, ha]))
        (hkeys.numberOf? ha hnodup) hlength hbody hrest⟩
    · have hnone : atomicCount [opener] = 0 := by rw [atomicCount_cons, if_neg ha, atomicCount_nil]
      rw [hnone] at hinside
      obtain ⟨hkeysBody, hkeysRest⟩ := hinside.body hc
      obtain ⟨body', hbody⟩ := ihbody (u.inside opener) hreadsBody hquestionBody hkeysBody hkept.2.1
      obtain ⟨rest', hrest⟩ := ihrest { (u.inside opener).after body with stack := u.stack }
        hreadsRest hquestionRest hkeysRest hkept.2.2.2
      exact ⟨_, .group ho ha hc hreads hbody hrest⟩

/-- Balanced tokens without atomic groups are their own unfolding. -/
theorem unfoldedAs_self (hb : Balanced ts) (hreads : Reads ts follow)
    (ha : ∀ t ∈ ts, t.kind ≠ .atomicOpen) (c : Nat) : UnfoldedAs id c ts (ts.map (·, false)) := by
  induction hb generalizing c follow with
  | nil => exact .nil c
  | @plain t ts ho hc _ ih =>
    have hrest := ih hreads.2 (List.forall_mem_cons.1 ha).2 c
    cases hr : t.isReference with
    | true =>
      obtain ⟨i, hk⟩ := Token.isReference_iff.1 hr
      rw [(hreads.1.eq_referenceToken hk).1]
      exact .reference rfl hrest
    | false => exact .plain ho hc hr hrest
  | group ho hc _ _ ihbody ihrest =>
    obtain ⟨hreadsBody, -, hreadsRest⟩ := reads_append.1 hreads.2
    simp only [List.forall_mem_cons, List.forall_mem_append] at ha
    rw [List.map_cons, List.map_append, List.map_cons]
    exact .group ho ha.1 hc (ihbody hreadsBody ha.2.1 _) (ihrest hreadsRest ha.2.2.2 _)

/-! ## Captures keep what is said of them -/

/-- The capture that the token refers to. -/
def refersTo? (t : Token) : Option Nat :=
  match t.kind with
  | .backreference i => some i
  | _ => none

theorem refersTo?_of_not (h : t.isReference = false) : refersTo? t = none := by
  unfold refersTo?
  split
  next hk => simp [Token.isReference, hk] at h
  next => rfl

/-- The tokens that were not introduced have the references of the pattern. -/
theorem UnfoldedAs.references_eq (h : UnfoldedAs f c ts us) :
    (us.filter (!·.2)).filterMap (refersTo? ·.1) = (ts.filterMap refersTo?).map f := by
  have hopen : ∀ t : Token, t.kind.isOpen ∨ t.kind = .close → refersTo? t = none := by
    intro t ht
    refine refersTo?_of_not (isReference_eq_false fun i hi => ?_)
    rw [hi] at ht
    simp [Kind.isOpen] at ht
  induction h with
  | nil => rfl
  | plain ho hc hr _ ih =>
    rw [List.filter_cons_of_pos rfl, List.filterMap_cons_none (refersTo?_of_not hr), ← ih]
    exact List.filterMap_cons_none (refersTo?_of_not hr)
  | @reference c i t ts us hk _ ih =>
    have ht : refersTo? t = some i := by rw [refersTo?, hk]
    rw [List.filter_cons_of_pos rfl, List.filterMap_cons_some ht, List.map_cons, ← ih]
    rfl
  | group ho ha hc _ _ ihbody ihrest =>
    simp [hopen _ (.inl ho), hopen _ (.inr hc), ihbody, ihrest]
  | atomic ho hc _ _ ihbody ihrest =>
    have hatomic := hopen _ (.inl (by rw [ho]; rfl))
    simp [hatomic, hopen _ (.inr hc), ihbody, ihrest, atomicOpening, atomicClosing]

/-- There are no atomic groups left. -/
theorem UnfoldedAs.kind_ne (h : UnfoldedAs f c ts us) : ∀ u ∈ us, u.1.kind ≠ .atomicOpen := by
  induction h with
  | nil => exact nofun
  | plain ho hc hr _ ih => exact List.forall_mem_cons.2 ⟨(not_capture_of_not_open ho).2, ih⟩
  | reference hk _ ih => exact List.forall_mem_cons.2 ⟨nofun, ih⟩
  | group ho ha hc _ _ ihbody ihrest =>
    exact List.forall_mem_cons.2 ⟨ha, List.forall_mem_append.2
      ⟨ihbody, List.forall_mem_cons.2 ⟨by simp [hc], ihrest⟩⟩⟩
  | atomic ho hc _ _ ihbody ihrest =>
    simp only [List.forall_mem_append]
    refine ⟨?_, ihbody, ?_, ihrest⟩
    · simp [atomicOpening, groupToken, aheadToken, lookToken, captureToken]
    · simp [atomicClosing, closeToken, referenceToken]

/-- The tokens `us` are an unfolding of `ts`, in which capture `i` of the pattern has the number `f
i`, and the layout `l'` says of the new numbers what `l` says of the old ones. -/
structure KeepsCaptures (f : Nat → Nat) (ts : List Token) (us : List (Token × Bool))
    (l l' : CaptureLayout) : Prop where
  unfolded : UnfoldedAs f 0 ts us
  noAtomic : ∀ u ∈ us, u.1.kind ≠ .atomicOpen
  bounded : ∀ i, 0 < i → i ≤ captureCount ts → 0 < f i ∧ f i ≤ captureCount (us.map (·.1))
  increasing : ∀ i j, 0 < i → i < j → j ≤ captureCount ts → f i < f j
  names : ∀ i, 0 < i → i ≤ captureCount ts →
    ((us.map (·.1)).filterMap (·.captureName?))[f i - 1]? = (ts.filterMap (·.captureName?))[i - 1]?
  references : (us.filter (!·.2)).filterMap (refersTo? ·.1) = (ts.filterMap refersTo?).map f
  hidden : ∀ j, j ∈ l'.hidden ↔ (∃ i ∈ l.hidden, f i = j) ∨
    (0 < j ∧ j ≤ captureCount (us.map (·.1)) ∧ ∀ i, 0 < i → i ≤ captureCount ts → f i ≠ j)
  reports : ∀ d s, l'.Reports d s ↔ ∃ d' s', l.Reports d' s' ∧ f d' = d ∧ f s' = s
  transfers : l.Ascending → l'.transfers = l.mapTransfers f

/-- A pattern without atomic groups keeps its captures as they are. -/
theorem keepsCaptures_self (hb : Balanced ts) (hreads : Reads ts [])
    (ha : ∀ t ∈ ts, t.kind ≠ .atomicOpen) (l : CaptureLayout) :
    KeepsCaptures id ts (ts.map (·, false)) l l := by
  have hunfolded := unfoldedAs_self hb hreads ha 0
  have htokens : (ts.map (·, false)).map (·.1) = ts := by
    rw [List.map_map]
    exact List.map_id' ts
  refine ⟨hunfolded, hunfolded.kind_ne, ?_, fun i j _ hij _ => hij, ?_, hunfolded.references_eq,
    fun j => ?_, fun d s => ?_, fun _ => ?_⟩
  · rw [htokens]
    exact fun i hpos hle => ⟨hpos, hle⟩
  · rw [htokens]
    exact fun i _ _ => rfl
  · constructor
    · exact fun hj => .inl ⟨j, hj, rfl⟩
    · rintro (⟨i, hi, rfl⟩ | ⟨hpos, hle, hnot⟩)
      · exact hi
      · rw [htokens] at hle
        exact absurd rfl (hnot j hpos hle)
  · constructor
    · exact fun h => ⟨d, s, h, rfl, rfl⟩
    · rintro ⟨d', s', h, rfl, rfl⟩
      exact h
  · simp [CaptureLayout.mapTransfers]

section

variable (horder : order = unfoldKeys 0 0 ts)

include horder

/-- The number of a capture of the pattern after the unfolding. -/
theorem numberOf?_existing {i : Nat} (hpos : 0 < i) (hle : i ≤ captureCount ts) :
    numberOf? order (.existing i 0) = some (referenceNumber order (.existing i 0)) := by
  have hr := horder ▸ reorders_unfoldKeys ts
  obtain ⟨j, hj⟩ := exists_numberOf? (hr.mem.2 ⟨hpos, hle⟩)
  rw [referenceNumber_eq hj, hj]

/-- A capture was added if it is none of the pattern. -/
theorem exists_injected_iff :
    (∃ key, numberOf? order key = some j ∧ key.isInjected) ↔
      0 < j ∧ j ≤ order.length ∧
        ∀ i, 0 < i → i ≤ captureCount ts → referenceNumber order (.existing i 0) ≠ j := by
  have hr := horder ▸ reorders_unfoldKeys ts
  constructor
  · rintro ⟨key, hkey, hinjected⟩
    refine ⟨(numberOf?_le hkey).1, (numberOf?_le hkey).2, fun i hpos hle hi => ?_⟩
    have hnumber := numberOf?_existing horder hpos hle
    rw [hi] at hnumber
    -- one place has one capture
    have hsame := (getElem?_of_numberOf? hkey).symm.trans (getElem?_of_numberOf? hnumber)
    rw [Option.some.inj hsame] at hinjected
    cases hinjected
  · rintro ⟨hpos, hle, hnot⟩
    obtain ⟨key, hkey⟩ : ∃ key, order[j - 1]? = some key :=
      ⟨_, List.getElem?_eq_getElem (by omega)⟩
    have hnumber := numberOf?_eq_some hr.nodup hkey
    rw [Nat.sub_add_cancel hpos] at hnumber
    refine ⟨key, hnumber, ?_⟩
    have hinjected : key.isInjected = !key.isKept :=
      isInjected_unfoldKeys key (horder ▸ List.mem_of_getElem? hkey)
    by_contra hadded
    cases key with
    | injected m => exact hadded rfl
    | existing i c =>
      obtain ⟨hi, hi'⟩ := hr.bounded i c (List.mem_of_getElem? hkey)
      cases c with
      | zero => exact hnot i hi hi' (referenceNumber_eq hnumber)
      | succ c => cases hinjected

theorem mem_hidden_hideAdded (hhidden : ∀ i ∈ l.hidden, 0 < i ∧ i ≤ captureCount ts) :
    j ∈ (hideAdded order (carryOver order l)).hidden ↔
      (∃ i ∈ l.hidden, referenceNumber order (.existing i 0) = j) ∨
        (0 < j ∧ j ≤ order.length ∧
          ∀ i, 0 < i → i ≤ captureCount ts → referenceNumber order (.existing i 0) ≠ j) := by
  have hr := horder ▸ reorders_unfoldKeys ts
  rw [hideAdded, CaptureLayout.mem_hidden_foldl_hide, mem_added hr.nodup,
    exists_injected_iff horder, carryOver, CaptureLayout.mem_hidden_renumber, or_comm]
  refine or_congr_left (exists_congr fun i => and_congr_right fun hi => ?_)
  rw [numberOf?_existing horder (hhidden i hi).1 (hhidden i hi).2, Option.some_inj]

theorem reports_hideAdded
    (htransfers : ∀ d s, l.Reports d s → (0 < d ∧ d ≤ captureCount ts) ∧ 0 < s ∧ s ≤ captureCount ts)
    {d s : Nat} :
    (hideAdded order (carryOver order l)).Reports d s ↔
      ∃ d' s', l.Reports d' s' ∧ referenceNumber order (.existing d' 0) = d ∧
        referenceNumber order (.existing s' 0) = s := by
  rw [hideAdded, CaptureLayout.reports_foldl_hide, carryOver, CaptureLayout.reports_renumber]
  refine exists_congr fun d' => exists_congr fun s' => and_congr_right fun h => ?_
  obtain ⟨hd, hs⟩ := htransfers d' s' h
  rw [numberOf?_existing horder hd.1 hd.2, numberOf?_existing horder hs.1 hs.2, Option.some_inj,
    Option.some_inj]

/-- **The unfolding keeps the captures.** -/
theorem keepsCaptures_of_takes {size : Nat} {pieces : List Piece} (h : Takes order size {} [] ts us)
    (hpieces : atomicPieces size {} 0 ts = .ok pieces)
    (hspelled : SpelledAs order pieces (us.map (·.1)))
    (hhidden : ∀ i ∈ l.hidden, 0 < i ∧ i ≤ captureCount ts)
    (htransfers : ∀ d s, l.Reports d s → (0 < d ∧ d ≤ captureCount ts) ∧ 0 < s ∧ s ≤ captureCount ts)
    :
    KeepsCaptures (fun i => referenceNumber order (.existing i 0)) ts us l
      (hideAdded order (carryOver order l)) := by
  have hr := horder ▸ reorders_unfoldKeys ts
  have hkeys : keys pieces = order := (keys_atomicPieces hpieces).trans horder.symm
  have hcount : captureCount (us.map (·.1)) = order.length := by
    rw [hspelled.captureCount_eq, hkeys]
  have hincreasing : ∀ i j, (0 < i ∧ i ≤ captureCount ts) → (0 < j ∧ j ≤ captureCount ts) → i < j →
      referenceNumber order (.existing i 0) < referenceNumber order (.existing j 0) :=
    fun i j hi hj hij => hr.numberOf?_lt hij (numberOf?_existing horder hi.1 hi.2)
      (numberOf?_existing horder hj.1 hj.2)
  refine ⟨h.unfolded, h.unfolded.kind_ne, ?_, ?_, ?_, h.unfolded.references_eq, ?_, ?_, ?_⟩
  · intro i hpos hle
    rw [hcount]
    exact numberOf?_le (numberOf?_existing horder hpos hle)
  · exact fun i j hpos hij hle => hincreasing i j ⟨hpos, by omega⟩ ⟨by omega, hle⟩ hij
  · intro i hpos hle
    have htitled : Titled ([] ++ ts.filterMap (·.captureName?)) pieces :=
      titled_atomicPieces hpieces rfl
    have hlt : i - 1 < (ts.filterMap (·.captureName?)).length := by
      rw [captureCount] at hle
      omega
    rw [hspelled.titles_eq, htitled.titles_eq, hkeys, List.getElem?_map,
      getElem?_of_numberOf? (numberOf?_existing horder hpos hle)]
    simp [titleOf, List.getElem?_eq_getElem hlt]
  · intro j
    rw [hcount]
    exact mem_hidden_hideAdded horder hhidden
  · exact fun d s => reports_hideAdded horder htransfers
  · intro hascending
    have hnew : (hideAdded order (carryOver order l)).Ascending :=
      CaptureLayout.ascending_renumber.foldl_hide _
    refine hnew.transfers_eq (hascending.mapTransfers htransfers hincreasing) fun d s => ?_
    rw [reports_hideAdded horder htransfers]
    exact CaptureLayout.among_mapTransfers.symm

end

/-- The captures of the unfolded pattern are no more than the characters of the pattern. -/
theorem length_unfoldKeys_le (hreads : Reads ts []) :
    (unfoldKeys 0 0 ts).length ≤ (textOf ts).length := by
  have hhost := hostCaptureCount_eq ts
  have hle : hostCaptureCount ts ≤ ts.length := List.countP_le_length
  have htext := hreads.length_le
  rw [length_unfoldKeys, atomicCount]
  omega

/-- **Unfolding keeps captures what they are.** Let a pattern be balanced, with `n` captures and
with references and a layout that speak of these captures. Then its atomic groups can be unfolded,
the text scans to tokens without atomic groups, and there is an increasing map of the old numbers to
new ones through which go names, references, hidden captures and transfers. A reference that was
introduced is to the capture that was added for its own group, and the captures that were added are
hidden.

No question mark may come right after the opener of an atomic group, and the pattern must not be
longer than a machine word can count. -/
theorem unfoldAtomic_exact {d : Draft} {ts : List Token} (hscan : scan d.text = .ok ts)
    (hb : Balanced ts) (hreferences : ∀ t ∈ ts, t.refersWithin (captureCount ts) = true)
    (hhidden : ∀ i ∈ d.layout.hidden, 0 < i ∧ i ≤ captureCount ts)
    (htransfers : ∀ x s, d.layout.Reports x s →
      (0 < x ∧ x ≤ captureCount ts) ∧ 0 < s ∧ s ≤ captureCount ts)
    (hquestion : NoQuestionAfter opensAtomic ts) (hsize : d.text.length < 2 ^ 64) :
    ∃ d' us f, unfoldAtomic d = .ok d' ∧ scan d'.text = .ok (us.map (·.1)) ∧
      KeepsCaptures f ts us d.layout d'.layout := by
  have hreads := reads_of_scan hscan
  by_cases ha : ts.any (·.kind == .atomicOpen) = true
  · obtain ⟨order, horder⟩ : ∃ order, order = unfoldKeys 0 0 ts := ⟨_, rfl⟩
    have hr := horder ▸ reorders_unfoldKeys ts
    have hlength : order.length < 2 ^ 64 := by
      have hle := length_unfoldKeys_le hreads
      rw [← horder, textOf, scan_flatten hscan] at hle
      omega
    obtain ⟨us, hus⟩ := exists_takes hr.nodup hlength d.text.length hb {} hreads
      (hquestion.unquestioned hreads (by simp)) ⟨[], by rw [horder, List.append_nil]; rfl⟩
      fun t ht i hk => hr.mem.2 (Token.refersWithin_iff.1 (hreferences t ht) i hk)
    obtain ⟨pieces, hpieces, hspelled⟩ := hus.unfolds 0 [] [] rfl
    rw [List.append_nil, List.append_nil] at hpieces
    have hrun := unfoldAtomic_of_pieces hscan ha hpieces
    rw [(keys_atomicPieces hpieces).trans horder.symm] at hrun
    have hout : Reads (us.map (·.1)) [] := hus.renders.reads [] (.refl []) fun _ _ => rfl
    refine ⟨_, us, _, hrun, ?_,
      keepsCaptures_of_takes horder hus hpieces hspelled hhidden htransfers⟩
    rw [hspelled.render_eq hout.isChain_apart, scan_of_reads hout]
  · have hnone : ∀ t ∈ ts, t.kind ≠ .atomicOpen := by simpa using ha
    have hkeeps := keepsCaptures_self hb hreads hnone d.layout
    refine ⟨d, _, _, unfoldAtomic_of_no_atomic hscan (by simpa using ha), ?_, hkeeps⟩
    rw [hscan, List.map_map]
    exact congrArg _ (List.map_id' ts).symm

/-- Nested atomic groups with a reference across them, a hidden capture and a transfer. -/
theorem unfoldAtomic_exact_nested :
    ∃ ts us f, scan "(?>(a)(?>(?<x>b)))\\2(c)\\1".toList = .ok ts ∧ Balanced ts ∧
      unfoldAtomic ⟨"(?>(a)(?>(?<x>b)))\\2(c)\\1".toList, ⟨[3], [(1, [2, 3])]⟩⟩
        = .ok ⟨"(?:(?=((a)(?:(?=((?<x>b)))\\3)))\\1)\\4(c)\\2".toList,
          ⟨[1, 3, 5], [(2, [4, 5])]⟩⟩ ∧
      scan "(?:(?=((a)(?:(?=((?<x>b)))\\3)))\\1)\\4(c)\\2".toList = .ok (us.map (·.1)) ∧
      KeepsCaptures f ts us ⟨[3], [(1, [2, 3])]⟩ ⟨[1, 3, 5], [(2, [4, 5])]⟩ := by
  obtain ⟨ts, hscan, hb, hreferences, hquestion, hcount⟩ : ∃ ts,
      scan "(?>(a)(?>(?<x>b)))\\2(c)\\1".toList = .ok ts ∧ Balanced ts ∧
      (∀ t ∈ ts, t.refersWithin (captureCount ts) = true) ∧ NoQuestionAfter opensAtomic ts ∧
      captureCount ts = 3 := by
    refine ⟨[atomicToken, captureToken none, ⟨.atom, ['a']⟩, closeToken, atomicToken,
      captureToken (some ['x']), ⟨.atom, ['b']⟩, closeToken, closeToken, closeToken,
      referenceToken 2, captureToken none, ⟨.atom, ['c']⟩, closeToken, referenceToken 1], ?_⟩
    decide +kernel
  obtain ⟨d', us, f, hd', hscan', hkeeps⟩ := unfoldAtomic_exact
    (d := ⟨_, ⟨[3], [(1, [2, 3])]⟩⟩) hscan hb hreferences (by rw [hcount]; decide) (by
      rw [hcount]
      rintro x s ⟨sources, hmem, hs⟩
      cases List.mem_singleton.1 hmem
      simp only [List.mem_cons, List.not_mem_nil, or_false] at hs
      omega) hquestion (by decide)
  have hrun : unfoldAtomic ⟨"(?>(a)(?>(?<x>b)))\\2(c)\\1".toList, ⟨[3], [(1, [2, 3])]⟩⟩
      = .ok ⟨"(?:(?=((a)(?:(?=((?<x>b)))\\3)))\\1)\\4(c)\\2".toList,
        ⟨[1, 3, 5], [(2, [4, 5])]⟩⟩ := by
    decide +kernel
  cases hrun.symm.trans hd'
  exact ⟨ts, us, f, hscan, hb, hrun, hscan', hkeeps⟩

/-- **A question mark after the opener of an atomic group reads as another thing.** The pattern
fulfils all else that unfolding asks for. But the question mark comes after the parenthesis of the
added capture, and the unfolded text cannot be scanned. -/
theorem unfolded_question :
    ∃ ts, scan "(?>?x)".toList = .ok ts ∧ Balanced ts ∧
      (∀ t ∈ ts, t.refersWithin (captureCount ts) = true) ∧
      unfoldAtomic ⟨"(?>?x)".toList, {}⟩ = .ok ⟨"(?:(?=(?x))\\1)".toList, ⟨[1], []⟩⟩ ∧
      scan "(?:(?=(?x))\\1)".toList = .error (.malformed 9 .invalidGroup) := by
  refine ⟨[atomicToken, ⟨.quantifier false, ['?']⟩, ⟨.atom, ['x']⟩, closeToken], ?_⟩
  decide +kernel

end Diglot.Reduction
