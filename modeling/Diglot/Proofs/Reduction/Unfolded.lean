import Diglot.Proofs.Outcome
import Diglot.Proofs.Reduction.Relabel
import Diglot.Reduction.Atomic

/-!
# Unfolded patterns

An unfolded pattern has a look ahead with a capture in it in the place of each atomic group, and a
reference to the capture after it. The captures of the pattern keep their order and get new numbers.
-/

namespace Diglot.Reduction

open Emitted

variable {u u' : Unfolding} {ts us : List Token} {t opener : Token} {pieces : List Piece}
  {stack : List (Option Nat)} {n size i c : Nat} {body : List Phrase} {P : Token → Prop} {d : Draft}
  {order : List CaptureKey}

/-! ## Phrases -/

/-- The token that opens a look ahead. -/
def aheadToken : Token := lookToken ⟨false, false⟩

/-- What stands in the place of an atomic group, if its capture has the number `i`. -/
def atomicPhrase (i : Nat) (body : List Phrase) : Phrase :=
  .group groupToken
    [.group aheadToken [.group (captureToken none) body], .leaf (referenceToken i)]

/-- A token after captures were added. -/
def shiftToken (order : List CaptureKey) : Token → Token :=
  relabel id fun i => referenceNumber order (.existing i 0)

mutual

/-- The phrase without atomic groups, if `n` captures were added before it. -/
def unfoldPhrase (order : List CaptureKey) (n : Nat) : Phrase → Phrase
  | .leaf t => .leaf (shiftToken order t)
  | .group opener body =>
    if opener.kind = .atomicOpen then
      atomicPhrase (referenceNumber order (.injected n)) (unfoldPhrases order (n + 1) body)
    else .group (shiftToken order opener) (unfoldPhrases order n body)
  | .repeated body q => .repeated (unfoldPhrase order n body) q

/-- The phrases without atomic groups, if `n` captures were added before them. -/
def unfoldPhrases (order : List CaptureKey) (n : Nat) : List Phrase → List Phrase
  | [] => []
  | p :: ps => unfoldPhrase order n p :: unfoldPhrases order (n + p.tally.atomics) ps

end

/-! ## Where captures are added -/

/-- How many atomic groups the tokens open. -/
def atomicCount (ts : List Token) : Nat :=
  ts.countP (·.kind == .atomicOpen)

@[simp] theorem atomicCount_nil : atomicCount [] = 0 := rfl

@[simp] theorem atomicCount_append (ts us : List Token) :
    atomicCount (ts ++ us) = atomicCount ts + atomicCount us :=
  List.countP_append

theorem atomicCount_cons (t : Token) (ts : List Token) :
    atomicCount (t :: ts) = (if t.kind = .atomicOpen then 1 else 0) + atomicCount ts := by
  rw [atomicCount, List.countP_cons, Nat.add_comm, atomicCount]
  simp

/-- What the opener of a capture adds to the counts. -/
theorem counts_capture {name : Option (List Char)} (h : t.kind = .captureOpen name)
    (ts : List Token) :
    captureCount (t :: ts) = 1 + captureCount ts ∧ atomicCount (t :: ts) = atomicCount ts := by
  simp [captureCount_cons, atomicCount_cons, Token.captureName?, h]

theorem counts_atomic (h : t.kind = .atomicOpen) (ts : List Token) :
    captureCount (t :: ts) = captureCount ts ∧ atomicCount (t :: ts) = 1 + atomicCount ts := by
  simp [captureCount_cons, atomicCount_cons, Token.captureName?, h]

theorem counts_other (h : t.captureName? = none) (ha : t.kind ≠ .atomicOpen) (ts : List Token) :
    captureCount (t :: ts) = captureCount ts ∧ atomicCount (t :: ts) = atomicCount ts := by
  simp [captureCount_cons, atomicCount_cons, h, ha]

/-! ## Pieces -/

/-- The unfolding when the tokens have been taken apart. -/
def Unfolding.after (u : Unfolding) (ts : List Token) : Unfolding where
  captures := u.captures + captureCount ts
  injected := u.injected + atomicCount ts
  stack := u.stack

theorem Unfolding.after_append (u : Unfolding) (ts us : List Token) :
    u.after (ts ++ us) = (u.after ts).after us := by
  simp [Unfolding.after, Nat.add_assoc]

/-- A token that opens nothing leaves the unfolding as it is. -/
theorem Unfolding.after_cons (u : Unfolding) (h : t.captureName? = none) (ha : t.kind ≠ .atomicOpen)
    (ts : List Token) : u.after (t :: ts) = u.after ts := by
  rw [Unfolding.after, (counts_other h ha ts).1, (counts_other h ha ts).2, Unfolding.after]

/-- Taking apart `ts` gives pieces that `us` spell. -/
def Unfolds (order : List CaptureKey) (size : Nat) (u u' : Unfolding) (ts us : List Token) : Prop :=
  ∀ i rest last, atomicPieces size u' (i + ts.length) rest = .ok last →
    ∃ first, atomicPieces size u i (ts ++ rest) = .ok (first ++ last) ∧ SpelledAs order first us

theorem Unfolds.nil : Unfolds order size u u [] [] :=
  fun _ _ _ h => ⟨[], h, .nil⟩

theorem Unfolds.append {u'' : Unfolding} {ts' us' : List Token} (h : Unfolds order size u u' ts us)
    (h' : Unfolds order size u' u'' ts' us') :
    Unfolds order size u u'' (ts ++ ts') (us ++ us') := by
  intro i rest last hlast
  rw [List.length_append, ← Nat.add_assoc] at hlast
  obtain ⟨second, hsecond, hspelled'⟩ := h' _ _ _ hlast
  obtain ⟨first, hfirst, hspelled⟩ := h _ _ _ hsecond
  refine ⟨first ++ second, ?_, hspelled.append hspelled'⟩
  rw [List.append_assoc, List.append_assoc, hfirst]

/-- A step over one token. -/
theorem Unfolds.single
    (h : ∀ i ts last, atomicPieces size u' (i + 1) ts = .ok last → atomicPieces size u i (t :: ts) = .ok (pieces ++ last))
    (hs : SpelledAs order pieces us) : Unfolds order size u u' [t] us :=
  fun i rest last hlast => ⟨pieces, h i rest last hlast, hs⟩

theorem not_capture_of_not_open (h : t.kind.isOpen = false) :
    t.captureName? = none ∧ t.kind ≠ .atomicOpen := by
  cases hk : t.kind <;> simp_all [Token.captureName?, Kind.isOpen]

theorem not_open_of_isLeaf (h : t.kind.isLeaf) : t.kind.isOpen = false ∧ t.kind ≠ .close := by
  cases hk : t.kind <;> simp_all [Kind.isLeaf, Kind.isOpen]

theorem unfolds_text (u : Unfolding) (ho : t.kind.isOpen = false) (hc : t.kind ≠ .close)
    (hr : t.isReference = false) : Unfolds order size u u [t] [t] := by
  refine .single (fun i ts last h => ?_) (.single (.text_single (not_capture_of_not_open ho).1))
  rcases t with ⟨kind, text⟩
  cases kind with
  | captureOpen | groupOpen | lookOpen | atomicOpen => cases ho
  | close => exact absurd rfl hc
  | backreference j => cases hr
  | _ => rw [atomicPieces, h]; rfl

theorem unfolds_leaf (u : Unfolding) (h : t.kind.isLeaf) :
    Unfolds order size u u [t] [shiftToken order t] := by
  rcases relabel_cases id (fun i => referenceNumber order (.existing i 0)) t with
    ⟨title, hk, -⟩ | ⟨j, hk, h'⟩ | ⟨-, hr, h'⟩
  · simp [hk, Kind.isLeaf, Kind.isOpen] at h
  · rw [shiftToken, h']
    refine .single (fun i ts last hlast => ?_) (.single (.backreference (.existing j 0)))
    rw [atomicPieces, hk]
    dsimp only
    rw [hlast]
    rfl
  · rw [shiftToken, h']
    exact unfolds_text u (not_open_of_isLeaf h).1 (not_open_of_isLeaf h).2 hr

/-- The unfolding inside a group that is not atomic. -/
def Unfolding.inside (u : Unfolding) (opener : Token) : Unfolding where
  captures := u.captures + captureCount [opener]
  injected := u.injected
  stack := none :: u.stack

/-- The unfolding inside an atomic group. -/
def Unfolding.insideAtomic (u : Unfolding) : Unfolding where
  captures := u.captures
  injected := u.injected + 1
  stack := some u.injected :: u.stack

theorem unfolds_open (u : Unfolding) (h : opener.kind.isOpen) (ha : opener.kind ≠ .atomicOpen) :
    Unfolds order size u (u.inside opener) [opener] [shiftToken order opener] := by
  rcases opener with ⟨kind, text⟩
  cases kind with
  | captureOpen name =>
    refine .single (fun i ts last hlast => ?_)
      (.single (.openCapture (.existing (u.captures + 1) 0) name))
    rw [atomicPieces]
    replace hlast : atomicPieces size { u with captures := u.captures + 1, stack := none :: u.stack }
      (i + 1) ts = .ok last := hlast
    rw [hlast]
    rfl
  | groupOpen | lookOpen =>
    refine .single (fun i ts last hlast => ?_) (.single (.text_single rfl))
    rw [atomicPieces]
    replace hlast : atomicPieces size { u with stack := none :: u.stack } (i + 1) ts = .ok last :=
      hlast
    rw [hlast]
    rfl
  | atomicOpen => exact absurd rfl ha
  | _ => cases h

theorem unfolds_close (u : Unfolding) (hs : u.stack = none :: stack) :
    Unfolds order size u { u with stack } [closeToken] [closeToken] := by
  refine .single (fun i ts last hlast => ?_) (.single (.text_single rfl))
  rw [atomicPieces, hs]
  show (do let rest ← atomicPieces size { u with stack } (i + 1) ts; _) = _
  rw [hlast]
  rfl

/-- An atomic group opens a group, a look ahead and a capture. -/
theorem unfolds_openAtomic (u : Unfolding) (h : opener.kind = .atomicOpen) :
    Unfolds order size u u.insideAtomic [opener] [groupToken, aheadToken, captureToken none] := by
  have hpair : SpelledAs order [.text "(?:(?=".toList] [groupToken, aheadToken] :=
    .single ⟨rfl, nofun, nofun, nofun, rfl⟩
  refine .single (fun i ts last hlast => ?_)
    (hpair.append (.single (.openCapture (.injected u.injected) none)))
  rw [atomicPieces, h]
  show (do let rest ← atomicPieces size u.insideAtomic (i + 1) ts; _) = _
  rw [hlast]
  rfl

/-- Where an atomic group closes, the capture and the look ahead do, and the reference follows. -/
theorem unfolds_closeAtomic (u : Unfolding) (hs : u.stack = some n :: stack) :
    Unfolds order size u { u with stack } [closeToken]
      [closeToken, closeToken, referenceToken (referenceNumber order (.injected n)), closeToken] := by
  have hpair : SpelledAs order [.text "))".toList] [closeToken, closeToken] :=
    .single ⟨rfl, nofun, nofun, nofun, rfl⟩
  refine .single (fun i ts last hlast => ?_)
    (hpair.append ((SpelledAs.single (.backreference (.injected n))).append
      (.single (.text_single (t := closeToken) rfl))))
  rw [atomicPieces, hs]
  show (do let rest ← atomicPieces size { u with stack } (i + 1) ts; _) = _
  rw [hlast]
  rfl

section

variable {opener : Token} {body rest : List Token}

/-- The counts go over the body of a group and over what comes after it. -/
theorem Unfolding.after_group (u : Unfolding) (ha : opener.kind ≠ .atomicOpen) :
    u.after (opener :: (body ++ closeToken :: rest))
      = Unfolding.after { (u.inside opener).after body with stack := u.stack } rest := by
  have hclose := counts_other (t := closeToken) rfl nofun rest
  have hopen : atomicCount [opener] = 0 := by
    rw [atomicCount_cons, if_neg ha, atomicCount_nil]
  rw [← List.singleton_append]
  simp only [Unfolding.after, Unfolding.inside, captureCount_append, atomicCount_append, hclose,
    hopen, Nat.zero_add, Nat.add_assoc]

theorem Unfolding.after_atomic (u : Unfolding) (ho : opener.kind = .atomicOpen) :
    u.after (opener :: (body ++ closeToken :: rest))
      = Unfolding.after { u.insideAtomic.after body with stack := u.stack } rest := by
  have hclose := counts_other (t := closeToken) rfl nofun rest
  have hopen := counts_atomic ho (body ++ closeToken :: rest)
  simp only [Unfolding.after, Unfolding.insideAtomic, captureCount_append, atomicCount_append,
    hclose, hopen, Nat.add_assoc]

end

theorem tokens_atomicPhrase (i : Nat) (body : List Phrase) : (atomicPhrase i body).tokens
    = [groupToken, aheadToken, captureToken none]
      ++ (phraseTokens body ++ [closeToken, closeToken, referenceToken i, closeToken]) := by
  simp [atomicPhrase, Phrase.tokens, phraseTokens]

/-- **The pieces of a pattern are the tokens of the unfolded pattern.** -/
theorem unfolds_phraseTokens (ps : List Phrase) (h : AllWellFormed ps) (u : Unfolding) :
    Unfolds order size u (u.after (phraseTokens ps)) (phraseTokens ps)
      (phraseTokens (unfoldPhrases order u.injected ps)) := by
  induction ps, h using AllWellFormed.induction generalizing u with
  | nil => exact .nil
  | cons p ps _ hp _ ihp ihps =>
    have hfirst := ihp u
    simp only [phraseTokens_singleton, unfoldPhrases] at hfirst
    have hcount := (counts_tally (allWellFormed_singleton.1 hp)).atomics
    rw [phraseTokens, unfoldPhrases, phraseTokens, u.after_append, hcount]
    exact hfirst.append (ihps (u.after p.tokens))
  | leaf t _ ht =>
    have hother := not_capture_of_not_open (not_open_of_isLeaf ht).1
    simp only [phraseTokens_singleton, unfoldPhrases, unfoldPhrase, Phrase.tokens,
      u.after_cons hother.1 hother.2]
    exact unfolds_leaf u ht
  | group opener body _ _ ho ih =>
    simp only [phraseTokens_singleton, unfoldPhrases, unfoldPhrase, Phrase.tokens]
    split
    next ha =>
      rw [u.after_atomic ha, tokens_atomicPhrase]
      exact (unfolds_openAtomic u ha).append ((ih u.insideAtomic).append
        (unfolds_closeAtomic (u.insideAtomic.after (phraseTokens body)) rfl))
    next ha =>
      rw [u.after_group ha, Phrase.tokens]
      exact (unfolds_open u ho ha).append ((ih (u.inside opener)).append
        (unfolds_close ((u.inside opener).after (phraseTokens body)) rfl))
  | repeated body q _ _ _ hq ih =>
    obtain ⟨possessive, hk⟩ := Kind.exists_of_isQuantifier hq
    have ho : q.kind.isOpen = false := by rw [hk]; rfl
    have hother := not_capture_of_not_open ho
    have hbody := ih u
    simp only [phraseTokens_singleton, unfoldPhrases] at hbody
    simp only [phraseTokens_singleton, unfoldPhrases, unfoldPhrase, Phrase.tokens, u.after_append,
      Unfolding.after_cons _ hother.1 hother.2]
    exact hbody.append (unfolds_text _ ho (by simp [hk]) (by rw [Token.isReference, hk]))

/-! ## The captures of an unfolded pattern -/

/-- One step over a token: what was taken apart before and after it, and its pieces. -/
inductive UnfoldStep (u : Unfolding) (t : Token) : Unfolding → List Piece → Prop where
  | capture {name : Option (List Char)} (stack : List (Option Nat)) (h : t.kind = .captureOpen name) :
    UnfoldStep u t ⟨u.captures + 1, u.injected, stack⟩
      [.openCapture (.existing (u.captures + 1) 0) name]
  | atomic (stack : List (Option Nat)) (h : t.kind = .atomicOpen) :
    UnfoldStep u t ⟨u.captures, u.injected + 1, stack⟩
      [.text "(?:(?=".toList, .openCapture (.injected u.injected) none]
  | other (stack : List (Option Nat)) {pieces : List Piece} (h : t.captureName? = none)
    (ha : t.kind ≠ .atomicOpen) (hk : keys pieces = []) :
    UnfoldStep u t ⟨u.captures, u.injected, stack⟩ pieces

/-- **What the unfolding does with a token.** -/
theorem exists_unfoldStep (h : atomicPieces size u i (t :: ts) = .ok pieces) :
    ∃ u' first rest, UnfoldStep u t u' first ∧ atomicPieces size u' (i + 1) ts = .ok rest ∧
      pieces = first ++ rest := by
  rcases t with ⟨kind, text⟩
  have hother : ∀ (stack : List (Option Nat)) (first : List Piece),
      Token.captureName? ⟨kind, text⟩ = none → kind ≠ .atomicOpen → keys first = [] →
      (do let rest ← atomicPieces size { u with stack } (i + 1) ts; return first ++ rest)
        = .ok pieces →
      ∃ u' first rest, UnfoldStep u ⟨kind, text⟩ u' first ∧
        atomicPieces size u' (i + 1) ts = .ok rest ∧ pieces = first ++ rest := by
    intro stack first hname ha hkeys h
    obtain ⟨rest, hrest, h⟩ := exists_of_bind_eq_ok h
    cases h
    exact ⟨_, first, rest, .other stack hname ha hkeys, hrest, rfl⟩
  rw [atomicPieces] at h
  cases kind with
  | atomicOpen =>
    obtain ⟨rest, hrest, h⟩ := exists_of_bind_eq_ok h
    cases h
    exact ⟨_, _, rest, .atomic _ rfl, hrest, rfl⟩
  | captureOpen name =>
    obtain ⟨rest, hrest, h⟩ := exists_of_bind_eq_ok h
    cases h
    exact ⟨_, _, rest, .capture _ rfl, hrest, rfl⟩
  | groupOpen | lookOpen => exact hother (none :: u.stack) [.text text] rfl nofun rfl h
  | close =>
    dsimp only at h
    split at h
    next => cases h
    next n stack hs =>
      exact hother stack [.text "))".toList, .backreference (.injected n), .text [')']] rfl nofun
        rfl h
    next stack hs => exact hother stack [.text text] rfl nofun rfl h
  | backreference j => exact hother u.stack [.backreference (.existing j 0)] rfl nofun rfl h
  | _ => exact hother u.stack [.text text] rfl nofun rfl h

/-- The captures of the unfolded pattern in their order, if `c` captures have opened before the
tokens and `n` were added. -/
def unfoldKeys : Nat → Nat → List Token → List CaptureKey
  | _, _, [] => []
  | c, n, t :: ts =>
    match t.kind with
    | .captureOpen _ => .existing (c + 1) 0 :: unfoldKeys (c + 1) n ts
    | .atomicOpen => .injected n :: unfoldKeys c (n + 1) ts
    | _ => unfoldKeys c n ts

theorem unfoldKeys_capture {name : Option (List Char)} (h : t.kind = .captureOpen name) :
    unfoldKeys c n (t :: ts) = .existing (c + 1) 0 :: unfoldKeys (c + 1) n ts := by
  rw [unfoldKeys, h]

theorem unfoldKeys_atomic (h : t.kind = .atomicOpen) :
    unfoldKeys c n (t :: ts) = .injected n :: unfoldKeys c (n + 1) ts := by
  rw [unfoldKeys, h]

theorem unfoldKeys_other (h : t.captureName? = none) (ha : t.kind ≠ .atomicOpen) :
    unfoldKeys c n (t :: ts) = unfoldKeys c n ts := by
  rw [unfoldKeys]
  split
  next name hk => simp [Token.captureName?, hk] at h
  next hk => exact absurd hk ha
  next => rfl

theorem keys_atomicPieces (h : atomicPieces size u i ts = .ok pieces) :
    keys pieces = unfoldKeys u.captures u.injected ts := by
  induction ts generalizing u i pieces with
  | nil =>
    rw [atomicPieces] at h
    split at h
    · cases h
      rfl
    · cases h
  | cons t ts ih =>
    obtain ⟨u', first, rest, hstep, hrest, rfl⟩ := exists_unfoldStep h
    rw [keys_append, ih hrest]
    cases hstep with
    | capture stack hk => rw [unfoldKeys_capture hk]; rfl
    | atomic stack hk => rw [unfoldKeys_atomic hk]; rfl
    | other stack hname ha hkeys => rw [unfoldKeys_other hname ha, hkeys, List.nil_append]

/-- The captures keep their names, and added ones have none. -/
theorem titled_atomicPieces (h : atomicPieces size u i ts = .ok pieces)
    {titles : List (Option (List Char))} (ht : titles.length = u.captures) :
    Titled (titles ++ ts.filterMap (·.captureName?)) pieces := by
  induction ts generalizing u i pieces titles with
  | nil =>
    rw [atomicPieces] at h
    split at h
    · cases h
      exact nofun
    · cases h
  | cons t ts ih =>
    obtain ⟨u', first, rest, hstep, hrest, rfl⟩ := exists_unfoldStep h
    cases hstep with
    | @capture name stack hk =>
      have hlater : (titles ++ [name]).length = u.captures + 1 := by simp [ht]
      rw [List.filterMap_cons_some (b := name) (by simp [Token.captureName?, hk]),
        List.append_cons]
      refine Titled.append (fun key title hmem => ?_) (ih hrest hlater)
      obtain ⟨rfl, rfl⟩ := Piece.openCapture.inj (List.mem_singleton.1 hmem)
      simp [titleOf, ← ht]
    | atomic stack hk =>
      rw [List.filterMap_cons_none (by simp [Token.captureName?, hk])]
      refine Titled.append (fun key title hmem => ?_) (ih hrest ht)
      simp only [List.mem_cons, reduceCtorEq, false_or, List.not_mem_nil, or_false] at hmem
      obtain ⟨rfl, rfl⟩ := Piece.openCapture.inj hmem
      rfl
    | other stack hname ha hkeys =>
      rw [List.filterMap_cons_none hname]
      refine Titled.append (fun key title hmem => ?_) (ih hrest ht)
      have hkey : key ∈ keys first := List.mem_filterMap.2 ⟨_, hmem, rfl⟩
      rw [hkeys] at hkey
      cases hkey

theorem filter_isKept_unfoldKeys (c n : Nat) (ts : List Token) :
    (unfoldKeys c n ts).filter (·.isKept)
      = (List.range' (c + 1) (captureCount ts)).map (.existing · 0) := by
  fun_induction unfoldKeys c n ts with
  | case1 => rfl
  | case2 c n t ts name hk ih =>
    rw [List.filter_cons_of_pos rfl, ih, (counts_capture hk ts).1, Nat.add_comm 1, List.range'_succ,
      List.map_cons]
  | case3 c n t ts hk ih =>
    rw [List.filter_cons_of_neg (by simp [CaptureKey.isKept]), ih, (counts_atomic hk ts).1]
  | case4 c n t ts hc ha ih => rw [ih, (counts_other (captureName?_eq_none hc) ha ts).1]

theorem filter_isInjected_unfoldKeys (c n : Nat) (ts : List Token) :
    (unfoldKeys c n ts).filter (·.isInjected)
      = (List.range' n (ts.countP (·.kind == .atomicOpen))).map .injected := by
  fun_induction unfoldKeys c n ts with
  | case1 => rfl
  | case2 c n t ts name hk ih =>
    rw [List.filter_cons_of_neg (by simp [CaptureKey.isInjected]), ih,
      List.countP_cons_of_neg (by simp [hk])]
  | case3 c n t ts hk ih =>
    rw [List.filter_cons_of_pos rfl, ih, List.countP_cons_of_pos (by simp [hk]), List.range'_succ,
      List.map_cons]
  | case4 c n t ts hc ha ih => rw [ih, List.countP_cons_of_neg (by simpa using ha)]

theorem isInjected_unfoldKeys {c : Nat} :
    ∀ key ∈ unfoldKeys c n ts, key.isInjected = !key.isKept := by
  fun_induction unfoldKeys c n ts with
  | case1 => exact nofun
  | case2 c n t ts name hk ih | case3 c n t ts hk ih => exact List.forall_mem_cons.2 ⟨rfl, ih⟩
  | case4 c n t ts hc ha ih => exact ih

theorem reorders_unfoldKeys (ts : List Token) :
    Reorders (captureCount ts) (unfoldKeys 0 0 ts) where
  nodup := by
    have hperm := List.filter_append_perm (·.isKept) (unfoldKeys 0 0 ts)
    have hinjected : (unfoldKeys 0 0 ts).filter (fun key => !key.isKept)
        = (unfoldKeys 0 0 ts).filter (·.isInjected) :=
      List.filter_congr fun key hkey => (isInjected_unfoldKeys key hkey).symm
    rw [hinjected, filter_isKept_unfoldKeys, filter_isInjected_unfoldKeys] at hperm
    rw [← hperm.nodup_iff, List.nodup_append]
    refine ⟨nodup_map_existing List.nodup_range' 0,
      (List.nodup_range' ..).map fun _ _ h => CaptureKey.injected.inj h, ?_⟩
    rintro a ha b hb rfl
    obtain ⟨i, -, rfl⟩ := List.mem_map.1 ha
    obtain ⟨m, -, hm⟩ := List.mem_map.1 hb
    cases hm
  kept := filter_isKept_unfoldKeys 0 0 ts
  bounded i c hmem := by
    have hkept : CaptureKey.existing i c ∈ (unfoldKeys 0 0 ts).filter (·.isKept) := by
      refine List.mem_filter.2 ⟨hmem, ?_⟩
      simpa [CaptureKey.isInjected] using (isInjected_unfoldKeys _ hmem).symm
    rw [filter_isKept_unfoldKeys] at hkept
    obtain ⟨j, hj, heq⟩ := List.mem_map.1 hkept
    obtain ⟨rfl, rfl⟩ := CaptureKey.existing.inj heq
    have := List.mem_range'_1.1 hj
    omega

theorem injected_mem_unfoldKeys {m : Nat} :
    .injected m ∈ unfoldKeys 0 0 ts ↔ m < ts.countP (·.kind == .atomicOpen) := by
  have hmem : CaptureKey.injected m ∈ (unfoldKeys 0 0 ts).filter (·.isInjected) ↔
      .injected m ∈ unfoldKeys 0 0 ts := by
    rw [List.mem_filter]
    exact and_iff_left rfl
  rw [← hmem, filter_isInjected_unfoldKeys]
  simp

/-! ## Unfolded phrases -/

section

theorem isTarget_unfoldPhrase {p : Phrase} (h : p.isTarget) :
    (unfoldPhrase order n p).isTarget := by
  cases p with
  | leaf t => simpa [unfoldPhrase, Phrase.isTarget, shiftToken] using h
  | group opener body =>
    rw [unfoldPhrase]
    split
    · rfl
    · simpa [Phrase.isTarget, shiftToken] using h
  | repeated body q => cases h

theorem atomics_group (h : opener.kind ≠ .atomicOpen) (body : List Phrase) :
    (Phrase.group opener body).tally.atomics = (tallyAll body).atomics := by
  rw [Phrase.tally, groupTally]
  split
  · rfl
  next hk => exact absurd hk h
  · rfl

theorem legible_atomicPhrase (hi : 0 < i) (h : Legible body) : Legible [atomicPhrase i body] := by
  have hahead : Legible [.group aheadToken [.group (captureToken none) body]] :=
    .group (regular_look _) rfl (.group (regular_capture sound_capture) rfl h)
  refine .group regular_group rfl (hahead.append (.leaf (regular_reference hi) rfl) ?_)
  intro t ht u hu hr
  rw [← Option.mem_some.1 hu]
  rfl

theorem shiftToken_quantifier {q : Token} (h : q.kind.isQuantifier) : shiftToken order q = q := by
  obtain ⟨possessive, hk⟩ := Kind.exists_of_isQuantifier h
  exact relabel_other (by rw [Token.captureName?, hk]) (by rw [Token.isReference, hk])

theorem regular_shiftToken (h : t.Regular)
    (hmem : ∀ i, t.kind = .backreference i → .existing i 0 ∈ order) :
    (shiftToken order t).Regular :=
  regular_relabel h (fun _ => .inl rfl) fun i hk => (referenceNumber_le (hmem i hk)).1

variable {total : Nat}

/-- **Legible phrases stay legible without their atomic groups.** -/
theorem replaces_unfoldPhrases (ha : ∀ k < total, .injected k ∈ order) (ps : List Phrase) (n : Nat)
    (hn : n + (tallyAll ps).atomics ≤ total) (h : Legible ps)
    (hr : ∀ t ∈ phraseTokens ps, ∀ i, t.kind = .backreference i → .existing i 0 ∈ order) :
    Replaces ps (unfoldPhrases order n ps) := by
  induction ps using phrases_induction generalizing n with
  | nil => exact .nil
  | cons p ps ihp ihps =>
    replace h : Legible ([p] ++ ps) := h
    rw [phraseTokens, List.forall_mem_append] at hr
    rw [tallyAll, Tally.atomics_append] at hn
    rw [tallyAll_singleton, phraseTokens_singleton] at ihp
    exact .append h (ihp n (by omega) h.of_append.1 hr.1) (ihps _ (by omega) h.of_append.2 hr.2)
  | leaf t =>
    obtain ⟨hregular, hk⟩ := h.of_leaf
    refine .leaf (regular_shiftToken hregular (hr t (by simp [Phrase.tokens]))) ?_
      startsWithDigit_relabel ?_
    · simpa [shiftToken] using hk
    · simp [shiftToken]
  | group opener body ih =>
    obtain ⟨hregular, ho, hb⟩ := h.of_group
    rw [phraseTokens_singleton, Phrase.tokens, List.forall_mem_cons, List.forall_mem_append] at hr
    rw [tallyAll_singleton] at hn
    rw [unfoldPhrases, unfoldPhrases, unfoldPhrase]
    split
    next hk =>
      rw [Phrase.tally, groupTally, hk, Tally.atomic] at hn
      dsimp only at hn
      have hbody := ih (n + 1) (by omega) hb hr.2.1
      have hnumber := (referenceNumber_injected_le (ha n (by omega))).1
      exact Replaces.group regular_group rfl
        (legible_atomicPhrase hnumber hbody.legible).of_group.2.2
    next hk =>
      rw [atomics_group hk] at hn
      refine .group (regular_shiftToken hregular hr.1) ?_ (ih n hn hb hr.2.1).legible
      simpa [shiftToken] using ho
  | repeated body q ih =>
    obtain ⟨hb, ht, hregular, hk⟩ := h.of_repeated
    rw [phraseTokens_singleton, Phrase.tokens, List.forall_mem_append] at hr
    rw [tallyAll_singleton] at hn ih
    exact (ih n hn hb (by simpa using hr.1)).repeated (isTarget_unfoldPhrase ht) hregular hk

/-- **What an unfolded pattern is made of.** -/
theorem forall_mem_unfoldPhrases (hgroup : P groupToken) (hahead : P aheadToken)
    (hcapture : P (captureToken none)) (hclose : P closeToken)
    (hadded : ∀ k < total, P (referenceToken (referenceNumber order (.injected k))))
    (ps : List Phrase) (h : AllWellFormed ps) (n : Nat) (hn : n + (tallyAll ps).atomics ≤ total)
    (hp : ∀ t ∈ phraseTokens ps, t.kind ≠ .atomicOpen → P (shiftToken order t)) :
    ∀ t ∈ phraseTokens (unfoldPhrases order n ps), P t := by
  induction ps, h using AllWellFormed.induction generalizing n with
  | nil => exact nofun
  | cons p ps _ _ _ ihp ihps =>
    rw [phraseTokens, List.forall_mem_append] at hp
    rw [tallyAll, Tally.atomics_append] at hn
    simp only [tallyAll_singleton, phraseTokens_singleton, unfoldPhrases] at ihp
    rw [unfoldPhrases, phraseTokens, List.forall_mem_append]
    exact ⟨ihp n (by omega) hp.1, ihps _ (by omega) hp.2⟩
  | leaf t _ ht =>
    have hshift := hp t (by simp [Phrase.tokens]) fun hk => by simp [hk, Kind.isLeaf, Kind.isOpen] at ht
    simpa [unfoldPhrases, unfoldPhrase, Phrase.tokens] using hshift
  | group opener body _ _ _ ih =>
    rw [phraseTokens_singleton, Phrase.tokens, List.forall_mem_cons, List.forall_mem_append] at hp
    rw [tallyAll_singleton] at hn
    rw [unfoldPhrases, unfoldPhrases, phraseTokens_singleton, unfoldPhrase]
    split
    next hk =>
      rw [Phrase.tally, groupTally, hk, Tally.atomic] at hn
      dsimp only at hn
      rw [tokens_atomicPhrase, List.forall_mem_append, List.forall_mem_append]
      refine ⟨?_, ih (n + 1) (by omega) hp.2.1, ?_⟩
      · simp [hgroup, hahead, hcapture]
      · simp [hclose, hadded n (by omega)]
    next hk =>
      rw [atomics_group hk] at hn
      rw [Phrase.tokens, List.forall_mem_cons, List.forall_mem_append]
      exact ⟨hp.1 hk, ih n hn hp.2.1, by simpa using hclose⟩
  | repeated body q _ _ _ hq ih =>
    rw [phraseTokens_singleton, Phrase.tokens, List.forall_mem_append] at hp
    simp only [tallyAll_singleton, phraseTokens_singleton, unfoldPhrases] at ih hn
    rw [unfoldPhrases, unfoldPhrases, phraseTokens_singleton, unfoldPhrase, Phrase.tokens,
      List.forall_mem_append]
    have hlast := hp.2 q (by simp) fun hk => by simp [hk, Kind.isQuantifier] at hq
    rw [shiftToken_quantifier hq] at hlast
    exact ⟨ih n hn hp.1, by simpa using hlast⟩

end

/-! ## Unfolded patterns -/

/-- The order of the captures of the unfolded pattern. -/
def unfoldedOrder (ps : List Phrase) : List CaptureKey := unfoldKeys 0 0 (phraseTokens ps)

/-- The phrases of the unfolded pattern. -/
def unfolded (ps : List Phrase) : List Phrase := unfoldPhrases (unfoldedOrder ps) 0 ps

/-- The layout with the added captures hidden. -/
def hideAdded (order : List CaptureKey) (l : CaptureLayout) : CaptureLayout :=
  ((order.zipIdx.filter (·.1.isInjected)).map (·.2 + 1)).foldl (·.hide ·) l

variable {ps : List Phrase}

/-- The pieces of a pattern. -/
theorem exists_atomicPieces (hw : AllWellFormed ps) (size : Nat) :
    ∃ pieces, atomicPieces size {} 0 (phraseTokens ps) = .ok pieces ∧
      keys pieces = unfoldedOrder ps ∧
      SpelledAs (unfoldedOrder ps) pieces (phraseTokens (unfolded ps)) ∧
      Titled ((phraseTokens ps).filterMap (·.captureName?)) pieces := by
  have hend : atomicPieces size (Unfolding.after {} (phraseTokens ps)) (0 + (phraseTokens ps).length) []
      = .ok [] := rfl
  obtain ⟨pieces, hpieces, hspelled⟩ := unfolds_phraseTokens ps hw {} 0 [] [] hend
  rw [List.append_nil, List.append_nil] at hpieces
  have htitled : Titled ([] ++ (phraseTokens ps).filterMap (·.captureName?)) pieces :=
    titled_atomicPieces hpieces rfl
  exact ⟨pieces, hpieces, keys_atomicPieces hpieces, hspelled, htitled⟩

theorem captureCount_unfolded (hw : AllWellFormed ps) :
    captureCount (phraseTokens (unfolded ps)) = (unfoldedOrder ps).length := by
  obtain ⟨pieces, -, hkeys, hspelled, -⟩ := exists_atomicPieces hw 0
  rw [hspelled.captureCount_eq, hkeys]

/-- The captures keep their names, and added ones have none. -/
theorem titles_unfolded (hw : AllWellFormed ps) :
    (phraseTokens (unfolded ps)).filterMap (·.captureName?)
      = (unfoldedOrder ps).map (titleOf ((phraseTokens ps).filterMap (·.captureName?))) := by
  obtain ⟨pieces, -, hkeys, hspelled, htitled⟩ := exists_atomicPieces hw 0
  rw [hspelled.titles_eq, htitled.titles_eq, hkeys]

/-- **An unfolded pattern is coherent** if the pattern is. -/
theorem coherent_unfolded (h : Coherent ps) : Coherent (unfolded ps) := by
  have hw := h.legible.wellFormed
  have hkept : ∀ t ∈ phraseTokens ps, ∀ i, t.kind = .backreference i →
      .existing i 0 ∈ unfoldedOrder ps := fun t ht i hk =>
    (reorders_unfoldKeys (phraseTokens ps)).mem.2 (h.reference ht hk)
  have hcount := (counts_tallyAll ps hw).atomics
  have hadded : ∀ k < (tallyAll ps).atomics, .injected k ∈ unfoldedOrder ps := fun k hk =>
    injected_mem_unfoldKeys.2 (hcount ▸ hk)
  refine ⟨(replaces_unfoldPhrases hadded ps 0 (by omega) h.legible hkept).legible, ?_⟩
  rw [captureCount_unfolded hw]
  refine forall_mem_unfoldPhrases nofun nofun nofun nofun (fun k hk => ?_) ps hw 0
    (Nat.le_of_eq (Nat.zero_add _)) fun t ht _ i hi => ?_
  · rintro i ⟨⟩
    exact (referenceNumber_injected_le (hadded k hk)).2
  · rcases relabel_cases id (fun i => referenceNumber (unfoldedOrder ps) (.existing i 0)) t with
      ⟨title, -, h'⟩ | ⟨j, hj, h'⟩ | ⟨-, hnot, h'⟩ <;> rw [shiftToken, h'] at hi
    · cases hi
    · cases hi
      exact (referenceNumber_le (hkept t ht j hj)).2
    · simp [Token.isReference, hi] at hnot

/-- The host knows what the token says. -/
def IsHostToken (t : Token) : Prop :=
  t.kind ≠ .atomicOpen ∧ t.kind ≠ .quantifier true ∧ t.kind.isMarker = false

theorem isHost_unfolded (hw : AllWellFormed ps)
    (hp : ∀ t ∈ phraseTokens ps, t.kind ≠ .quantifier true)
    (hm : ∀ t ∈ phraseTokens ps, t.kind.isMarker = false) :
    ∀ t ∈ phraseTokens (unfolded ps), IsHostToken t := by
  have htoken : ∀ {k : Kind} {text : Text}, k ≠ .atomicOpen → k ≠ .quantifier true →
      k.isMarker = false → IsHostToken ⟨k, text⟩ := fun ha hq hm => ⟨ha, hq, hm⟩
  refine forall_mem_unfoldPhrases (htoken nofun nofun rfl) (htoken nofun nofun rfl)
    (htoken nofun nofun rfl) (htoken nofun nofun rfl) (fun k _ => htoken nofun nofun rfl) ps hw 0
    (Nat.le_of_eq (Nat.zero_add _)) fun t ht ha => ?_
  rcases relabel_cases id (fun i => referenceNumber (unfoldedOrder ps) (.existing i 0)) t with
    ⟨title, -, h'⟩ | ⟨j, -, h'⟩ | ⟨-, -, h'⟩ <;> rw [shiftToken, h']
  · exact htoken nofun nofun rfl
  · exact htoken nofun nofun rfl
  · exact ⟨ha, hp t ht, hm t ht⟩

/-- The pieces of a pattern with atomic groups are put together. -/
theorem unfoldAtomic_of_pieces (hs : scan d.text = .ok ts) (ha : ts.any (·.kind == .atomicOpen))
    (hpieces : atomicPieces d.text.length {} 0 ts = .ok pieces) :
    unfoldAtomic d = .ok ⟨render (keys pieces) pieces,
      hideAdded (keys pieces) (carryOver (keys pieces) d.layout)⟩ := by
  unfold unfoldAtomic
  rw [hs]
  simp only [bind, Except.bind, ha, hpieces, pure, Except.pure, Bool.not_true, Bool.false_eq_true,
    if_false, hideAdded]

/-- **Atomic groups are unfolded.** -/
theorem unfoldAtomic_eq (h : Coherent ps) (hs : scan d.text = .ok (phraseTokens ps))
    (ha : (phraseTokens ps).any (·.kind == .atomicOpen)) :
    unfoldAtomic d = .ok ⟨textOf (phraseTokens (unfolded ps)),
      hideAdded (unfoldedOrder ps) (carryOver (unfoldedOrder ps) d.layout)⟩ := by
  obtain ⟨pieces, hpieces, hkeys, hspelled, -⟩ :=
    exists_atomicPieces h.legible.wellFormed d.text.length
  rw [unfoldAtomic_of_pieces hs ha hpieces, hkeys,
    hspelled.render_eq (coherent_unfolded h).legible.apart]

/-- A pattern without atomic groups stays as it is. -/
theorem unfoldAtomic_of_no_atomic (hs : scan d.text = .ok ts)
    (ha : ts.any (·.kind == .atomicOpen) = false) : unfoldAtomic d = .ok d := by
  unfold unfoldAtomic
  rw [hs]
  simp only [bind, Except.bind, ha, pure, Except.pure, Bool.not_false, if_true]

end Diglot.Reduction
