import Diglot.Proofs.Emitted.FollowingText

/-!
# Reading a changed pattern

If tokens of a scanned pattern are replaced, the new text may scan to other tokens than those that
were put together. `Renders ts us follow` says that it does not: wherever `ts` stand in a pattern
with `follow` after them, `us` can stand in their place, and what comes after may be changed as
well. Single tokens are replaced by `renders_same`, `renders_reference` and `Renders.of_breaks`, and
`Renders.append` puts replaced stretches together.
-/

namespace Diglot.Emitted

open Text

variable {cs text follow : List Char} {k : Kind} {n m i : Nat} {c : Char}
  {ts us ts' us' : List Token} {t : Token} {name : Option (List Char)} {p : Token → Bool}

/-! ## Scanned tokens read back -/

theorem quantifierWithSuffix_le (n : Nat) (cs : List Char) :
    (quantifierWithSuffix n cs).2 ≤ n + cs.length := by
  unfold quantifierWithSuffix
  split <;> simp

theorem EndsAlone.le {f : List Char → Scanned} (h : EndsAlone f cs k n) : n ≤ cs.length := by
  obtain ⟨body, rest, rfl, rfl, -⟩ := h
  simp

theorem escape_le (h : escape cs = .ok (k, n)) : n ≤ cs.length := by
  rcases escape_cases h with h | ⟨c, rest, rfl, rfl, -⟩ | ⟨e, -, rest, rfl, -, -, rfl⟩ |
    ⟨c, rest, rfl, rfl, -, -⟩
  · exact h.le
  · simp
  · rw [List.length_take, List.length_cons]
    omega
  · exact (List.takeWhile_sublist _).length_le

/-- A token does not go on after the end of the text. -/
theorem scanAfter_le (h : scanAfter c cs = .ok (k, n)) : n ≤ cs.length := by
  have hsuffix : ∀ m ds, quantifierWithSuffix m ds = (k, n) → n ≤ m + ds.length := by
    intro m ds heq
    have := quantifierWithSuffix_le m ds
    rwa [heq] at this
  unfold scanAfter at h
  split at h
  next => exact escape_le h
  next =>
    cases hclass : classLength 0 0 cs with
    | error e => rw [hclass] at h; cases h
    | ok m =>
      rw [hclass] at h
      cases h
      obtain ⟨body, rest, rfl, hn, -⟩ := exists_of_classLength hclass
      rw [List.length_append]
      omega
  next =>
    rcases groupOpener_cases h with h | ⟨-, -, rfl⟩
    · exact h.le
    · exact Nat.zero_le _
  next => cases h; exact Nat.zero_le _
  next => cases h; exact Nat.zero_le _
  next => cases h; exact Nat.zero_le _
  next => cases h; exact Nat.zero_le _
  next => exact Nat.zero_add cs.length ▸ hsuffix 0 cs (Except.ok.inj h)
  next => exact Nat.zero_add cs.length ▸ hsuffix 0 cs (Except.ok.inj h)
  next => exact Nat.zero_add cs.length ▸ hsuffix 0 cs (Except.ok.inj h)
  next =>
    split at h
    next m hm =>
      have hle := intervalLength?_le hm
      have := hsuffix m _ (Except.ok.inj h)
      rw [List.length_drop] at this
      omega
    next => cases h; exact Nat.zero_le _
  next => cases h; exact Nat.zero_le _

theorem reads_of_scanFrom {position : Nat} (h : scanFrom position text = .ok ts) : Reads ts [] := by
  fun_induction scanFrom position text generalizing ts with
  | case1 => cases h; trivial
  | case2 => cases h
  | case3 position c cs kind n hscan ih =>
    cases hrest : scanFrom (position + 1 + (cs.take n).length) (cs.drop n) with
    | error e => rw [hrest] at h; cases h
    | ok rest =>
      rw [hrest] at h
      cases h
      have htext : textOf rest = cs.drop n := scanFrom_flatten hrest
      refine ⟨⟨c, cs.take n, rfl, ?_⟩, ih hrest⟩
      rw [htext, List.append_nil, List.take_append_drop,
        List.length_take_of_le (scanAfter_le hscan), hscan]

/-- **What scanning gives reads back.** -/
theorem reads_of_scan (h : scan text = .ok ts) : Reads ts [] :=
  reads_of_scanFrom h

theorem Token.ReadsBefore.text_ne_nil (h : t.ReadsBefore follow) : t.text ≠ [] := by
  obtain ⟨c, cs, ht, -⟩ := h
  rw [ht]
  exact List.cons_ne_nil c cs

theorem Reads.eq_nil (h : Reads ts follow) (htext : textOf ts = []) : ts = [] := by
  cases ts with
  | nil => rfl
  | cons t ts =>
    rw [textOf_cons] at htext
    exact absurd (List.append_eq_nil_iff.1 htext).1 h.1.text_ne_nil

/-- Every token has at least one character. -/
theorem Reads.length_le (h : Reads ts follow) : ts.length ≤ (textOf ts).length := by
  induction ts with
  | nil => exact Nat.le_refl 0
  | cons t ts ih =>
    have hpos := List.length_pos_iff.2 h.1.text_ne_nil
    have hrest := ih h.2
    rw [textOf_cons, List.length_append, List.length_cons]
    omega

/-! ## The texts of tokens of a kind -/

/-- Whether all tokens of the kind begin at a break. -/
def Kind.breaks : Kind → Bool
  | alternation | quantifier _ | assertion | atom => false
  | _ => true

/-- **What the first character says of a token.** -/
theorem scanAfter_cases (h : scanAfter c cs = .ok (k, n)) :
    (c = '\\' ∧ escape cs = .ok (k, n)) ∨ (c = '(' ∧ groupOpener cs = .ok (k, n)) ∨
      (c = ')' ∧ k = .close ∧ n = 0) ∨ k.breaks = false := by
  have hsuffix : ∀ m ds, quantifierWithSuffix m ds = (k, n) → k.breaks = false := by
    intro m ds heq
    unfold quantifierWithSuffix at heq
    split at heq <;> cases heq <;> rfl
  unfold scanAfter at h
  split at h
  next => exact .inl ⟨rfl, h⟩
  next =>
    cases hclass : classLength 0 0 cs with
    | error e => rw [hclass] at h; cases h
    | ok m => rw [hclass] at h; cases h; exact .inr (.inr (.inr rfl))
  next => exact .inr (.inl ⟨rfl, h⟩)
  next => cases h; exact .inr (.inr (.inl ⟨rfl, rfl, rfl⟩))
  next => cases h; exact .inr (.inr (.inr rfl))
  next => cases h; exact .inr (.inr (.inr rfl))
  next => cases h; exact .inr (.inr (.inr rfl))
  next => exact .inr (.inr (.inr (hsuffix _ _ (Except.ok.inj h))))
  next => exact .inr (.inr (.inr (hsuffix _ _ (Except.ok.inj h))))
  next => exact .inr (.inr (.inr (hsuffix _ _ (Except.ok.inj h))))
  next =>
    split at h
    next m hm => exact .inr (.inr (.inr (hsuffix _ _ (Except.ok.inj h))))
    next => cases h; exact .inr (.inr (.inr rfl))
  next => cases h; exact .inr (.inr (.inr rfl))

theorem kind_of_atomThrough {closer : Char} (h : atomThrough closer m cs = .ok (k, n)) :
    k = .atom := by
  unfold atomThrough at h
  split at h <;> cases h
  rfl

theorem kind_of_groupRecursion {body : List Char} (h : groupRecursion body m = .ok (k, n)) :
    k.isMarker := by
  unfold groupRecursion at h
  split at h
  next => cases h
  next =>
    split at h
    next => cases h
    next => split at h <;> cases h <;> rfl

/-- An escape is a character, a boundary, a marker, or a reference with all the digits that come. -/
theorem escape_kind (h : escape cs = .ok (k, n)) :
    (k = .atom ∨ k = .assertion) ∨ k.isMarker ∨ ∃ c rest i, cs = c :: rest ∧
      ('1' ≤ c && c ≤ '9') = true ∧ k = .backreference i ∧ n = digitCount cs ∧
        number? 10 (2 ^ 64) (cs.take n) = some i := by
  unfold escape at h
  split at h
  next => cases h
  next => cases h; exact .inl (.inr rfl)
  next => cases h; exact .inl (.inr rfl)
  next => exact .inl (.inl (kind_of_atomThrough h))
  next =>
    split at h
    next => exact .inr (.inl (kind_of_groupRecursion h))
    next => cases h
  next => exact .inl (.inl (kind_of_atomThrough h))
  next => exact .inl (.inl (kind_of_atomThrough h))
  next => exact .inl (.inl (kind_of_atomThrough h))
  next => exact .inl (.inl (kind_of_atomThrough h))
  next => cases h; exact .inl (.inl rfl)
  next => cases h; exact .inl (.inl rfl)
  next => cases h; exact .inl (.inl rfl)
  next c rest _ _ _ _ _ _ _ _ _ _ _ =>
    split at h
    next hdigit =>
      dsimp only at h
      split at h
      next i hi => cases h; exact .inr (.inr ⟨c, rest, i, rfl, hdigit, rfl, rfl, hi⟩)
      next => cases h
    next => cases h; exact .inl (.inl rfl)

/-- A capture has a name in angle brackets, or none. -/
theorem groupOpener_capture (h : groupOpener cs = .ok (.captureOpen name, n)) :
    (name = none ∧ n = 0 ∧ cs.head? ≠ some '?') ∨
      ∃ body rest, name = some body ∧ cs = '?' :: '<' :: (body ++ '>' :: rest) ∧
        n = body.length + 3 := by
  unfold groupOpener at h
  split at h
  next => cases h
  next => cases h
  next => cases h
  next => cases h
  next => cases h
  next => cases h
  next =>
    split at h
    next m hm =>
      obtain ⟨body, rest, rfl, -, rfl⟩ := exists_of_lengthThrough hm
      rw [Nat.add_sub_cancel, List.take_left] at h
      cases h
      exact .inr ⟨body, rest, rfl, rfl, rfl⟩
    next => cases h
  next =>
    dsimp only at h
    split at h
    next => cases h
    next => split at h <;> cases h
  next => dsimp only at h; split at h <;> cases h
  next hquestion =>
    cases h
    exact .inl ⟨rfl, rfl, fun hhead => hquestion _ (List.eq_cons_of_mem_head? hhead)⟩

/-- A parenthesis with what belongs to it opens a group or is a marker. -/
theorem groupOpener_kind (h : groupOpener cs = .ok (k, n)) : k.isOpen ∨ k.isMarker := by
  unfold groupOpener at h
  split at h
  next => cases h; exact .inl rfl
  next => cases h; exact .inl rfl
  next => cases h; exact .inl rfl
  next => cases h; exact .inl rfl
  next => cases h; exact .inl rfl
  next => cases h; exact .inl rfl
  next => split at h <;> cases h; exact .inl rfl
  next =>
    dsimp only at h
    split at h
    next => cases h
    next => split at h <;> cases h; exact .inr rfl
  next => dsimp only at h; split at h <;> cases h; exact .inl rfl
  next => cases h; exact .inl rfl

theorem exists_of_quantifierWithSuffix (h : quantifierWithSuffix m cs = (.quantifier true, n)) :
    ∃ rest, cs = '+' :: rest ∧ n = m + 1 := by
  unfold quantifierWithSuffix at h
  split at h
  next rest => cases h; exact ⟨rest, rfl, rfl⟩
  next => cases h
  next => cases h

theorem exists_of_scanAfter_possessive (h : scanAfter c cs = .ok (.quantifier true, n)) :
    ∃ body rest, cs = body ++ '+' :: rest ∧ n = body.length + 1 ∧ IsSign (c :: body) := by
  unfold scanAfter at h
  split at h
  next =>
    rcases escape_kind h with hplain | hmarker | ⟨_, _, _, _, _, hj, _⟩
    · rcases hplain with h | h <;> cases h
    · cases hmarker
    · cases hj
  next =>
    cases hclass : classLength 0 0 cs with
    | error e => rw [hclass] at h; cases h
    | ok m => rw [hclass] at h; cases h
  next => rcases groupOpener_kind h with h | h <;> cases h
  next => cases h
  next => cases h
  next => cases h
  next => cases h
  next =>
    obtain ⟨rest, rfl, hn⟩ := exists_of_quantifierWithSuffix (Except.ok.inj h)
    exact ⟨[], rest, rfl, by simpa using hn, isSign_star⟩
  next =>
    obtain ⟨rest, rfl, hn⟩ := exists_of_quantifierWithSuffix (Except.ok.inj h)
    exact ⟨[], rest, rfl, by simpa using hn, isSign_plus⟩
  next =>
    obtain ⟨rest, rfl, hn⟩ := exists_of_quantifierWithSuffix (Except.ok.inj h)
    exact ⟨[], rest, rfl, by simpa using hn, isSign_question⟩
  next =>
    split at h
    next m hm =>
      obtain ⟨body, rest, rfl, rfl, hsign⟩ := exists_of_intervalLength? hm
      rw [List.drop_left] at h
      obtain ⟨rest, rfl, hn⟩ := exists_of_quantifierWithSuffix (Except.ok.inj h)
      exact ⟨body, rest, rfl, hn, isSign_interval hsign⟩
    next => cases h
  next => cases h

namespace Token.ReadsBefore

/-- A reference has its number as its text and all digits that come. -/
theorem eq_referenceToken (h : t.ReadsBefore follow) (hk : t.kind = .backreference i) :
    t = referenceToken i ∧ 0 < i ∧ i < 2 ^ 64 ∧ ∀ c ∈ follow.head?, c.isDigit = false := by
  obtain ⟨kind, text⟩ := t
  cases hk
  obtain ⟨c, cs, rfl, hscan⟩ := h
  rcases scanAfter_cases hscan with ⟨rfl, hescape⟩ | ⟨-, hopener⟩ | ⟨-, hclose, -⟩ | hbreaks
  · rcases escape_kind hescape with hplain | hmarker |
      ⟨c, rest, j, hrest, hdigit, hj, hn, hnumber⟩
    · rcases hplain with h | h <;> cases h
    · cases hmarker
    · cases hj
      rw [List.take_left] at hnumber
      obtain ⟨hne, hall, rfl, hlt⟩ := number?_eq_some.1 hnumber
      have hz : cs.head?.any (· != '0') := by
        obtain ⟨d, ds, rfl⟩ := List.exists_cons_of_ne_nil hne
        cases hrest
        simp only [List.head?_cons, Option.any_some, bne_iff_ne]
        rintro rfl
        exact absurd hdigit (by decide)
      refine ⟨?_, ofDigits_pos hz hall, hlt, fun c hc => ?_⟩
      · rw [referenceToken, referenceText_eq, toDigits_ofDigits hz hall]
      · cases follow with
        | nil => cases hc
        | cons d follow =>
          cases hc
          by_contra hd
          -- one more digit would belong to the number
          rw [digitCount, List.takeWhile_append_of_pos hall, List.takeWhile_cons_of_pos,
            List.length_append, List.length_cons] at hn
          · omega
          · rw [isDigit_ten]
            simpa using hd
  · rcases groupOpener_kind hopener with h | h <;> cases h
  · cases hclose
  · cases hbreaks

theorem eq_closeToken (h : t.ReadsBefore follow) (hk : t.kind = .close) : t = closeToken := by
  obtain ⟨kind, text⟩ := t
  cases hk
  obtain ⟨c, cs, rfl, hscan⟩ := h
  rcases scanAfter_cases hscan with ⟨-, hescape⟩ | ⟨-, hopener⟩ | ⟨rfl, -, hn⟩ | hbreaks
  · rcases escape_kind hescape with hplain | hmarker | ⟨_, _, _, _, _, hj, _⟩
    · rcases hplain with h | h <;> cases h
    · cases hmarker
    · cases hj
  · rcases groupOpener_kind hopener with h | h <;> cases h
  · rw [List.length_eq_zero_iff.1 hn]
    rfl
  · cases hbreaks

/-- A capture is written in one way. One without a name is not before a question mark. -/
theorem eq_captureToken (h : t.ReadsBefore follow) (hk : t.kind = .captureOpen name) :
    t = captureToken name ∧ (name = none → follow.head? ≠ some '?') := by
  obtain ⟨kind, text⟩ := t
  cases hk
  obtain ⟨c, cs, rfl, hscan⟩ := h
  rcases scanAfter_cases hscan with ⟨-, hescape⟩ | ⟨rfl, hopener⟩ | ⟨-, hclose, -⟩ | hbreaks
  · rcases escape_kind hescape with hplain | hmarker | ⟨_, _, _, _, _, hj, _⟩
    · rcases hplain with h | h <;> cases h
    · cases hmarker
    · cases hj
  · rcases groupOpener_capture hopener with ⟨rfl, hn, hhead⟩ | ⟨body, rest, rfl, htext, hn⟩
    · obtain rfl := List.length_eq_zero_iff.1 hn
      exact ⟨rfl, fun _ => hhead⟩
    · have htext : cs ++ follow = ('?' :: '<' :: (body ++ ['>'])) ++ rest := by simp [htext]
      obtain ⟨rfl, -⟩ := List.append_inj htext (by simp [hn])
      exact ⟨rfl, nofun⟩
  · cases hclose
  · cases hbreaks

/-- An escape that is cut short is at the end. -/
theorem eq_nil_of_isTruncated (h : t.ReadsBefore follow) (ht : t.isTruncated = true) :
    follow = [] := by
  obtain ⟨kind, text⟩ := t
  obtain ⟨c, cs, rfl, hscan⟩ := h
  obtain ⟨e, he, hcut⟩ := List.any_eq_true.1 ht
  simp only [Bool.and_eq_true, decide_eq_true_eq, bne_iff_ne] at hcut
  obtain ⟨⟨hfront, hlength⟩, hbrace⟩ := hcut
  cases cs with
  | nil => simp at hfront
  | cons d ds =>
    obtain ⟨rfl, rfl⟩ : c = '\\' ∧ d = e.1 := by simpa using hfront
    rw [List.length_cons, List.length_cons] at hlength
    have hscan : escape (e.1 :: (ds ++ follow)) = .ok (kind, ds.length + 1) := hscan
    by_cases hopen : (ds ++ follow).head? = some '\x7b' → e.1 = 'c'
    · rw [escape_counted he hopen] at hscan
      have hn := congrArg Prod.snd (Except.ok.inj hscan)
      rw [List.length_take, List.length_append] at hn
      exact List.length_eq_zero_iff.1 (by omega)
    · -- a brace would have been taken with the letter
      obtain ⟨hhead, hc⟩ := Classical.not_imp.1 hopen
      have hds : ds = [] := by
        cases ds with
        | nil => rfl
        | cons b ds =>
          cases hhead
          exact absurd rfl hbrace
      subst hds
      have hletter : e.1 ∈ ['p', 'P', 'u', 'x'] := by
        have hall : escapeLengths.all (fun e => e.1 = 'c' || ['p', 'P', 'u', 'x'].contains e.1)
            = true := by
          decide
        simpa [hc] using List.all_eq_true.1 hall e he
      rw [List.nil_append] at hhead hscan
      rw [List.eq_cons_of_mem_head? hhead, escape_braced hletter, atomThrough] at hscan
      split at hscan
      next m hm =>
        have hn := congrArg Prod.snd (Except.ok.inj hscan)
        simp only [List.length_nil] at hn
        omega
      next => cases hscan

/-- A possessive quantifier is a sign with a plus. -/
theorem exists_isSign (h : t.ReadsBefore follow) (hk : t.kind = .quantifier true) :
    ∃ s, IsSign s ∧ t.text = s ++ ['+'] := by
  obtain ⟨kind, text⟩ := t
  cases hk
  obtain ⟨c, cs, rfl, hscan⟩ := h
  obtain ⟨body, rest, htext, hn, hsign⟩ := exists_of_scanAfter_possessive hscan
  have htext : cs ++ follow = (body ++ ['+']) ++ rest := by simp [htext]
  obtain ⟨rfl, -⟩ := List.append_inj htext (by simp [hn])
  exact ⟨c :: body, hsign, rfl⟩

end Token.ReadsBefore

/-- No digit follows a reference that reads back. -/
theorem Reads.isChain_apart (h : Reads ts follow) : ts.IsChain Token.Apart := by
  induction ts with
  | nil => exact .nil
  | cons t ts ih =>
    refine List.isChain_cons.2 ⟨fun u hu hr => ?_, ih h.2⟩
    obtain ⟨i, hk⟩ := Token.isReference_iff.1 hr
    obtain ⟨us, rfl⟩ := List.head?_eq_some_iff.1 hu
    have hdigit := (h.1.eq_referenceToken hk).2.2.2
    obtain ⟨c, cs, hu⟩ := List.exists_cons_of_ne_nil h.2.1.text_ne_nil
    rw [Token.startsWithDigit, hu]
    exact hdigit c (by simp [hu])

/-- Only the last token can be cut short. -/
theorem Reads.isTruncated_eq_false (h : Reads ts [])
    (hlast : ∀ t ∈ ts.getLast?, t.isTruncated = false) : ∀ t ∈ ts, t.isTruncated = false := by
  induction ts with
  | nil => exact nofun
  | cons t ts ih =>
    cases ts with
    | nil => exact List.forall_mem_singleton.2 (hlast t rfl)
    | cons u us =>
      refine List.forall_mem_cons.2 ⟨?_, ih h.2 hlast⟩
      by_contra ht
      have hend := h.1.eq_nil_of_isTruncated (by simpa using ht)
      rw [List.append_nil] at hend
      cases h.2.eq_nil hend

/-! ## Replaced tokens -/

/-- Where `ts` stand before `follow`, `us` can stand in their place, and what comes after may be
changed from a break on. Only an escape that is cut short must stay at the end. -/
structure Renders (ts us : List Token) (follow : List Char) : Prop where
  empty : ts = [] → us = []
  reads : ∀ z, Coincide follow z → (follow = [] → (∃ t ∈ ts, t.isTruncated = true) → z = []) →
    Reads us z
  coincide : ∀ z, Coincide follow z → Coincide (textOf ts ++ follow) (textOf us ++ z)

theorem Renders.nil : Renders [] [] follow where
  empty _ := rfl
  reads _ _ _ := trivial
  coincide _ hz := hz

theorem Renders.append (h : Renders ts us (textOf ts' ++ follow)) (h' : Renders ts' us' follow)
    (hreads : Reads ts' follow) : Renders (ts ++ ts') (us ++ us') follow where
  empty hnil := by
    obtain ⟨hts, hts'⟩ := List.append_eq_nil_iff.1 hnil
    rw [h.empty hts, h'.empty hts', List.append_nil]
  reads z hz hend := by
    refine reads_append.2 ⟨h.reads _ (h'.coincide z hz) ?_, h'.reads z hz ?_⟩
    · rintro hnil ⟨t, ht, htruncated⟩
      obtain ⟨htext, hfollow⟩ := List.append_eq_nil_iff.1 hnil
      have hz := hend hfollow ⟨t, List.mem_append_left _ ht, htruncated⟩
      rw [h'.empty (hreads.eq_nil htext), hz]
      rfl
    · rintro hfollow ⟨t, ht, htruncated⟩
      exact hend hfollow ⟨t, List.mem_append_right _ ht, htruncated⟩
  coincide z hz := by
    rw [textOf_append, textOf_append, List.append_assoc, List.append_assoc]
    exact h.coincide _ (h'.coincide z hz)

/-- A token that is kept. -/
theorem renders_same (h : t.ReadsBefore follow) : Renders [t] [t] follow where
  empty hnil := hnil
  reads z hz hend := by
    refine ⟨h.coincide hz fun htruncated => ?_, trivial⟩
    have hfollow := h.eq_nil_of_isTruncated htruncated
    have hz := hend hfollow ⟨t, List.mem_singleton_self t, htruncated⟩
    rw [textOf_nil, List.nil_append, hfollow, hz]
  coincide z hz := by
    rw [textOf_cons, textOf_nil, List.append_nil]
    exact hz.append_left t.text

/-- A token for which others come that begin at a break. -/
theorem Renders.of_breaks {u : Token} (hu : ∃ c ∈ breakers, ∃ cs, u.text = c :: cs)
    (hreads : ∀ z, Coincide follow z → Reads (u :: us) z) : Renders [t] (u :: us) follow where
  empty hnil := by cases hnil
  reads z hz _ := hreads z hz
  coincide z hz := by
    obtain ⟨d, hd, ds, hu⟩ := hu
    rw [textOf_cons u, hu]
    exact .of_breaks (breaks_cons hd _)

theorem readsBefore_groupToken (z : List Char) : groupToken.ReadsBefore z :=
  sound_group z fun _ _ => rfl

theorem readsBefore_closeToken (z : List Char) : closeToken.ReadsBefore z :=
  sound_close z fun _ _ => rfl

theorem breaker_reference (i : Nat) : ∃ c ∈ breakers, ∃ cs, (referenceToken i).text = c :: cs :=
  ⟨'\\', by decide, _, referenceText_eq i⟩

/-- A reference gets another number. -/
theorem renders_reference (h : t.ReadsBefore follow) {j : Nat} (hk : t.kind = .backreference i)
    (hpos : 0 < j) (hlt : j < 2 ^ 64) : Renders [t] [referenceToken j] follow := by
  refine .of_breaks (breaker_reference j) fun z hz => ?_
  have hnext := hz.forall_head? (p := Char.isDigit) (by decide) (h.eq_referenceToken hk).2.2.2
  refine ⟨sound_reference hpos hlt _ fun c hc => ?_, trivial⟩
  rw [Token.admits, isDigit_ten, hnext c hc]
  rfl

/-- A parenthesis opens a capture before anything but a question mark. -/
theorem readsBefore_capture (h : follow.head? ≠ some '?') {z : List Char} (hz : Coincide follow z) :
    (captureToken none).ReadsBefore z := by
  refine sound_capture z fun c hc => ?_
  simp only [Token.admits, bne_iff_ne]
  rintro rfl
  exact h (hz.head?_eq (by decide) hc)

/-- A capture loses its name. -/
theorem renders_unnamed (hnext : follow.head? ≠ some '?') :
    Renders [t] [captureToken none] follow :=
  .of_breaks ⟨'(', by decide, [], rfl⟩ fun _ hz => ⟨readsBefore_capture hnext hz, trivial⟩

/-! ## Conditions on patterns -/

/-- Whether the token refers to one of `n` captures, if it is a reference. -/
def Token.refersWithin (n : Nat) (t : Token) : Bool :=
  match t.kind with
  | .backreference i => 0 < i && i ≤ n
  | _ => true

theorem Token.refersWithin_iff :
    t.refersWithin n = true ↔ ∀ i, t.kind = .backreference i → 0 < i ∧ i ≤ n := by
  unfold Token.refersWithin
  split
  next i hk => simp [hk]
  next hk => simpa using fun i hi => absurd hi (hk i)

/-- Whether the token opens a capture with a name. -/
def Token.isNamed (t : Token) : Bool :=
  t.captureName?.any (·.isSome)

/-- None of the tokens begins with a question mark that comes right after a token of which `p`
holds. -/
def NoQuestionAfter (p : Token → Bool) (ts : List Token) : Prop :=
  ts.IsChain fun t u => p t = true → u.text.head? ≠ some '?'

instance (p : Token → Bool) (ts : List Token) : Decidable (NoQuestionAfter p ts) :=
  inferInstanceAs (Decidable (ts.IsChain fun t u => p t = true → u.text.head? ≠ some '?'))

/-- Where `follow` comes after the tokens, no question mark comes right after a token of which `p`
holds. -/
def Unquestioned (p : Token → Bool) : List Token → List Char → Prop
  | [], _ => True
  | t :: ts, follow =>
    (p t = true → (textOf ts ++ follow).head? ≠ some '?') ∧ Unquestioned p ts follow

theorem unquestioned_append {us : List Token} :
    Unquestioned p (ts ++ us) follow ↔
      Unquestioned p ts (textOf us ++ follow) ∧ Unquestioned p us follow := by
  induction ts with
  | nil => simp [Unquestioned]
  | cons t ts ih => simp [Unquestioned, ih, and_assoc]

theorem NoQuestionAfter.unquestioned (h : NoQuestionAfter p ts) (hreads : Reads ts follow)
    (hfollow : follow.head? ≠ some '?') : Unquestioned p ts follow := by
  induction ts with
  | nil => trivial
  | cons t ts ih =>
    obtain ⟨hnext, hrest⟩ := List.isChain_cons.1 h
    refine ⟨fun ht => ?_, ih hrest hreads.2⟩
    cases ts with
    | nil => exact hfollow
    | cons u us =>
      have hu := hnext u rfl ht
      obtain ⟨c, cs, htext⟩ := List.exists_cons_of_ne_nil hreads.2.1.text_ne_nil
      rw [htext] at hu
      simpa [htext] using hu

end Diglot.Emitted
