import Diglot.Proofs.Emitted.Landmarks
import Diglot.Proofs.Reduction.Tracked

/-!
# Reductions and landmarks

What a reduction does to the captures of a pattern depends on the landmarks of the pattern only. So
two patterns with the same landmarks and the same layout have the same landmarks and the same layout
again when they have been reduced.
-/

namespace Diglot.Reduction

open Emitted

variable {t opener : Token} {ps body : List Phrase} {n depth : Nat}
  {name : Option (List Char) → Option (List Char)} {number : Nat → Nat} {hole : Phrase}

/-! ## Possessive quantifiers -/

/-- A possessive quantifier is an atomic group. -/
theorem landmarksAll_possessAll (ps : List Phrase) :
    landmarksAll (possessAll ps) = landmarksAll ps := by
  induction ps using phrases_induction with
  | nil => rfl
  | cons p ps hp hps =>
    rw [possessAll, possessAll, landmarksAll_singleton, landmarksAll_singleton] at hp
    rw [possessAll, landmarksAll, landmarksAll, hp, hps]
  | leaf t => rfl
  | group opener body ih => simp only [possessAll, possess, landmarksAll, Phrase.landmarks, ih]
  | repeated body q ih =>
    rw [possessAll, possessAll, landmarksAll_singleton, landmarksAll_singleton] at ih
    rw [possessAll, possessAll, possess, landmarksAll_singleton, landmarksAll_singleton,
      Phrase.landmarks, repeatedLandmarks, ← ih]
    by_cases hq : q.kind = .quantifier true
    · rw [if_pos (by simpa [isPossessive] using hq), if_pos hq, Phrase.landmarks,
        landmarksAll_singleton, Phrase.landmarks]
      rfl
    · rw [if_neg (by simpa [isPossessive] using hq), if_neg hq, Phrase.landmarks,
        repeatedLandmarks, if_neg hq]

/-! ## Filling -/

/-- What becomes of a landmark when captures get new names and markers are filled. -/
def refill (name : Option (List Char) → Option (List Char)) (inner : List Landmark) :
    Landmark → List Landmark
  | .opening title => [.opening (name title)]
  | .marker _ => inner
  | l => [l]

theorem leafLandmarks_relabel (h : t.kind.isMarker = false) :
    leafLandmarks (relabel name number t) = [] := by
  rw [leafLandmarks, isMarker_relabel, h]
  rfl

theorem groupLandmarks_relabel (opener : Token) (inside : List Landmark) :
    groupLandmarks (relabel name number opener) (inside.flatMap (refill name hole.landmarks))
      = (groupLandmarks opener inside).flatMap (refill name hole.landmarks) := by
  rcases relabel_cases name number opener with ⟨title, hk, h'⟩ | ⟨i, hk, h'⟩ | ⟨hc, hr, h'⟩
  · rw [h', groupLandmarks, groupLandmarks, hk]
    simp [captureToken, refill]
  · rw [h', groupLandmarks, groupLandmarks, hk]
    rfl
  · rw [h']
    unfold groupLandmarks
    split
    next hk => simp [Token.captureName?, hk] at hc
    next => rfl
    next => rfl

theorem landmarksAll_fillAll (ps : List Phrase) : landmarksAll (fillAll (relabel name number) hole ps)
    = (landmarksAll ps).flatMap (refill name hole.landmarks) := by
  induction ps using phrases_induction with
  | nil => rfl
  | cons p ps hp hps =>
    rw [fillAll, fillAll, landmarksAll_singleton, landmarksAll_singleton] at hp
    rw [fillAll, landmarksAll, landmarksAll, hp, hps, List.flatMap_append]
  | leaf t =>
    rw [fillAll, fillAll, fill, landmarksAll_singleton, landmarksAll_singleton, Phrase.landmarks,
      leafLandmarks]
    split
    next => simp [refill]
    next hm =>
      rw [Phrase.landmarks, leafLandmarks_relabel (by simpa using hm)]
      rfl
  | group opener body ih =>
    simp only [fillAll, fill, landmarksAll_singleton, Phrase.landmarks, ih, groupLandmarks_relabel]
  | repeated body q ih =>
    simp only [fillAll, fill, landmarksAll_singleton, Phrase.landmarks, repeatedLandmarks] at ih ⊢
    rw [ih]
    split <;> rfl

/-- The landmarks of what stands in the place of a marker. -/
def holeLandmarks (region : List Landmark) : Nat → List Landmark
  | 0 => []
  | below + 1 => region.flatMap (refill (fun _ => none) (holeLandmarks region below))

theorem landmarks_hole (r : Recursion) (region : List Phrase) (copy below : Nat) :
    (r.hole region copy below).landmarks = holeLandmarks (landmarksAll region) below := by
  induction below generalizing copy with
  | zero => rfl
  | succ below ih =>
    have hname : copyName (copy + 1) = fun _ => none := rfl
    rw [Recursion.hole, Phrase.landmarks, Recursion.copyToken, landmarksAll_fillAll, hname, ih]
    rfl

/-- The landmarks of an unrolled pattern. -/
theorem landmarksAll_unrolled (r : Recursion) (region ps : List Phrase) :
    landmarksAll (r.unrolled region ps) = (landmarksAll ps).flatMap
      (refill id (holeLandmarks (landmarksAll region) (r.depth - 1))) := by
  have hname : copyName 0 = id := rfl
  rw [Recursion.unrolled, Recursion.copyToken, landmarksAll_fillAll, landmarks_hole, hname]

/-! ## Landmarks among tokens -/

/-- The landmark that a token is by itself. -/
def landmark? (t : Token) : Option Landmark :=
  match t.kind with
  | .captureOpen title => some (.opening title)
  | .atomicOpen => some .atomic
  | k => if k.isMarker then some (.marker k) else none

section

variable {α : Type} {f : Landmark → Option α}

/-- Openers and markers are where their tokens are, and so are atomic groups if there are no
possessive quantifiers. -/
theorem filterMap_landmarksAll (hclosing : f .closing = none) (ps : List Phrase)
    (h : AllWellFormed ps)
    (hp : f .atomic = none ∨ ∀ t ∈ phraseTokens ps, t.kind ≠ .quantifier true) :
    (landmarksAll ps).filterMap f = ((phraseTokens ps).filterMap landmark?).filterMap f := by
  induction ps, h using AllWellFormed.induction with
  | nil => rfl
  | cons p ps _ _ _ ihp ihps =>
    rw [phraseTokens, List.forall_mem_append, or_and_left] at hp
    rw [landmarksAll_singleton, phraseTokens_singleton] at ihp
    rw [landmarksAll, phraseTokens, List.filterMap_append, List.filterMap_append,
      List.filterMap_append, ihp hp.1, ihps hp.2]
  | leaf t _ ht =>
    rw [landmarksAll_singleton, phraseTokens_singleton, Phrase.landmarks, Phrase.tokens]
    rcases t with ⟨kind, text⟩
    cases kind <;> first | rfl | cases ht
  | group opener body _ _ ho ih =>
    rw [landmarksAll_singleton, phraseTokens_singleton, Phrase.landmarks, Phrase.tokens] at *
    have hbody := ih (hp.imp_right fun hall t ht => hall t (by simp [ht]))
    have hclose : [closeToken].filterMap landmark? = [] := rfl
    have hlast : [Landmark.closing].filterMap f = [] := List.filterMap_cons_none hclosing
    rw [← List.singleton_append, List.filterMap_append, List.filterMap_append, List.filterMap_append,
      hclose, List.append_nil, ← hbody]
    rcases opener with ⟨kind, text⟩
    cases kind with
    | captureOpen title =>
      show ([Landmark.opening title] ++ (landmarksAll body ++ [Landmark.closing])).filterMap f = _
      rw [List.filterMap_append, List.filterMap_append, hlast, List.append_nil]
      rfl
    | atomicOpen =>
      show ([Landmark.atomic] ++ landmarksAll body).filterMap f = _
      rw [List.filterMap_append]
      rfl
    | groupOpen | lookOpen => rfl
    | _ => exact absurd ho (by simp [Kind.isOpen])
  | repeated body q _ _ _ hq ih =>
    rw [landmarksAll_singleton, phraseTokens_singleton] at *
    rw [Phrase.tokens, List.forall_mem_append, or_and_left] at hp
    obtain ⟨possessive, hk⟩ := Kind.exists_of_isQuantifier hq
    have hnone : landmark? q = none := by simp [landmark?, hk, Kind.isMarker]
    rw [Phrase.landmarks, Phrase.tokens, List.filterMap_append, List.filterMap_cons_none hnone,
      List.filterMap_nil, List.append_nil, ← ih hp.1, repeatedLandmarks]
    split
    next hk =>
      -- the atomic group of a possessive quantifier does not count
      have ha : f .atomic = none := hp.2.resolve_right fun hall => hall q (by simp) hk
      rw [List.filterMap_cons_none ha]
    next => rfl

end

/-- The name of a capture that opens. -/
def title? : Landmark → Option (Option (List Char))
  | .opening title => some title
  | _ => none

theorem filterMap_title? (ts : List Token) :
    (ts.filterMap landmark?).filterMap title? = ts.filterMap (·.captureName?) := by
  rw [List.filterMap_filterMap]
  refine List.filterMap_congr fun t _ => ?_
  rcases t with ⟨kind, text⟩
  cases kind <;> rfl

/-- The landmarks name the captures. -/
theorem titles_landmarksAll (h : AllWellFormed ps) :
    (landmarksAll ps).filterMap title? = (phraseTokens ps).filterMap (·.captureName?) := by
  rw [filterMap_landmarksAll rfl ps h (.inl rfl), filterMap_title?]

/-- The kind of a marker. -/
def markerKind? : Landmark → Option Kind
  | .marker k => some k
  | _ => none

/-- The landmarks have the markers. -/
theorem markers_landmarksAll (h : AllWellFormed ps) :
    (landmarksAll ps).filterMap markerKind?
      = ((phraseTokens ps).filter (·.kind.isMarker)).map (·.kind) := by
  have hmarker : ∀ t : Token, (landmark? t).bind markerKind?
      = if t.kind.isMarker then some t.kind else none := by
    intro t
    rcases t with ⟨kind, text⟩
    cases kind <;> rfl
  rw [filterMap_landmarksAll rfl ps h (.inl rfl), List.filterMap_filterMap, funext hmarker,
    ← List.filterMap_eq_map', List.filterMap_filter]

/-- How many captures open among landmarks. -/
def openingCount (ls : List Landmark) : Nat :=
  (ls.filterMap title?).length

theorem openingCount_append (ls ms : List Landmark) :
    openingCount (ls ++ ms) = openingCount ls + openingCount ms := by
  rw [openingCount, List.filterMap_append, List.length_append, openingCount, openingCount]

theorem openingCount_landmarksAll (h : AllWellFormed ps) :
    openingCount (landmarksAll ps) = captureCount (phraseTokens ps) := by
  rw [openingCount, titles_landmarksAll h, captureCount]

/-! ## Regions -/

/-- The landmarks before the capture around them closes. -/
def upToClosing : Nat → List Landmark → List Landmark
  | _, [] => []
  | depth, .opening title :: ls => .opening title :: upToClosing (depth + 1) ls
  | 0, .closing :: _ => []
  | depth + 1, .closing :: ls => .closing :: upToClosing depth ls
  | depth, .atomic :: ls => .atomic :: upToClosing depth ls
  | depth, .marker k :: ls => .marker k :: upToClosing depth ls

/-- The landmarks inside the capture before which `n` others open. -/
def insideCapture : Nat → List Landmark → List Landmark
  | _, [] => []
  | 0, .opening _ :: ls => upToClosing 0 ls
  | n + 1, .opening _ :: ls => insideCapture n ls
  | n, .closing :: ls | n, .atomic :: ls | n, .marker _ :: ls => insideCapture n ls

/-- In phrases a capture closes where it opens. -/
theorem upToClosing_landmarksAll (ps : List Phrase) (depth : Nat) (rest : List Landmark) :
    upToClosing depth (landmarksAll ps ++ rest) = landmarksAll ps ++ upToClosing depth rest := by
  induction ps using phrases_induction generalizing depth rest with
  | nil => rfl
  | cons p ps hp hps =>
    rw [landmarksAll_singleton] at hp
    rw [landmarksAll, List.append_assoc, hp, hps, List.append_assoc]
  | leaf t =>
    rw [landmarksAll_singleton, Phrase.landmarks, leafLandmarks]
    split
    · rw [List.singleton_append, upToClosing, List.singleton_append]
    · rfl
  | group opener body ih =>
    rw [landmarksAll_singleton, Phrase.landmarks, groupLandmarks]
    split
    · rw [List.cons_append, upToClosing, List.append_assoc, ih, List.singleton_append, upToClosing]
      simp
    · rw [List.cons_append, upToClosing, ih, List.cons_append]
    · exact ih depth rest
  | repeated body q ih =>
    rw [landmarksAll_singleton] at ih
    rw [landmarksAll_singleton, Phrase.landmarks, repeatedLandmarks]
    split
    · rw [List.cons_append, upToClosing, ih, List.cons_append]
    · exact ih depth rest

theorem insideCapture_append (before : List Landmark) (title : Option (List Char))
    (rest : List Landmark) :
    insideCapture (openingCount before) (before ++ .opening title :: rest) = upToClosing 0 rest := by
  induction before with
  | nil => rfl
  | cons l before ih =>
    cases l with
    | opening t => exact ih
    | _ => exact ih

/-- There is a capture before which `n` others open, among tokens with their landmarks. -/
structure HasCapture (ts : List Token) (ls : List Landmark) (n : Nat) (opener : Token)
    (body : List Phrase) : Prop where
  wellFormed : (Phrase.group opener body).WellFormed
  opens : opener.captureName?.isSome
  tokens : ∃ before after, ts = before ++ ((Phrase.group opener body).tokens ++ after) ∧
    captureCount before = n
  landmarks : ∃ before title after,
    ls = before ++ .opening title :: (landmarksAll body ++ .closing :: after) ∧ openingCount before = n

theorem HasCapture.surrounded {ts : List Token} {ls : List Landmark}
    (h : HasCapture ts ls n opener body) (before after : List Token) (first last : List Landmark)
    (hcount : openingCount first = captureCount before) :
    HasCapture (before ++ (ts ++ after)) (first ++ (ls ++ last)) (captureCount before + n) opener
      body where
  wellFormed := h.wellFormed
  opens := h.opens
  tokens := by
    obtain ⟨b, a, rfl, rfl⟩ := h.tokens
    exact ⟨before ++ b, a ++ after, by simp, by rw [captureCount_append]⟩
  landmarks := by
    obtain ⟨b, title, a, rfl, rfl⟩ := h.landmarks
    refine ⟨first ++ b, title, a ++ last, by simp, ?_⟩
    rw [openingCount_append, hcount]

theorem exists_hasCapture (ps : List Phrase) (h : AllWellFormed ps) (n : Nat)
    (hn : n < captureCount (phraseTokens ps)) :
    ∃ opener body, HasCapture (phraseTokens ps) (landmarksAll ps) n opener body := by
  induction ps, h using AllWellFormed.induction generalizing n with
  | nil => cases hn
  | cons p ps _ hp _ ihp ihps =>
    rw [phraseTokens_singleton, landmarksAll_singleton] at ihp
    rw [phraseTokens, captureCount_append] at hn
    rw [phraseTokens, landmarksAll]
    by_cases hfirst : n < captureCount p.tokens
    · obtain ⟨o, b, hb⟩ := ihp n hfirst
      have hall := hb.surrounded [] (phraseTokens ps) [] (landmarksAll ps) rfl
      exact ⟨o, b, by simpa using hall⟩
    · obtain ⟨o, b, hb⟩ := ihps (n - captureCount p.tokens) (by omega)
      have hcount := openingCount_landmarksAll hp
      rw [landmarksAll_singleton, phraseTokens_singleton] at hcount
      have hall := hb.surrounded p.tokens [] p.landmarks [] hcount
      have hn' : captureCount p.tokens + (n - captureCount p.tokens) = n := by omega
      exact ⟨o, b, by simpa [hn'] using hall⟩
  | leaf t _ ht =>
    have hnone : t.captureName? = none := by
      rcases t with ⟨kind, text⟩
      cases kind <;> first | rfl | cases ht
    rw [phraseTokens_singleton, Phrase.tokens, captureCount_cons, hnone] at hn
    cases hn
  | group opener body hwf _ _ ih =>
    rw [phraseTokens_singleton] at hn ⊢
    have hinside : ∀ m < captureCount (phraseTokens body), ∀ first last,
        openingCount first = captureCount [opener] →
        ∃ o b, HasCapture (Phrase.group opener body).tokens (first ++ (landmarksAll body ++ last))
          (captureCount [opener] + m) o b := by
      intro m hm first last hfirst
      obtain ⟨o, b, hb⟩ := ih m hm
      exact ⟨o, b, hb.surrounded [opener] [closeToken] first last hfirst⟩
    have hcount : captureCount (Phrase.group opener body).tokens
        = captureCount [opener] + captureCount (phraseTokens body) := by
      rw [Phrase.tokens, ← List.singleton_append, captureCount_append, captureCount_append]
      rfl
    rw [hcount] at hn
    rw [landmarksAll_singleton, Phrase.landmarks]
    unfold groupLandmarks
    split
    next title hk =>
      have hone : captureCount [opener] = 1 := by simp [captureCount, Token.captureName?, hk]
      cases n with
      | zero =>
        refine ⟨opener, body, hwf.1, by simp [Token.captureName?, hk], ⟨[], [], by simp, rfl⟩, ?_⟩
        exact ⟨[], title, [], by simp, rfl⟩
      | succ n =>
        have hbody := hinside n (by omega) [.opening title] [.closing] hone.symm
        rw [hone, Nat.add_comm] at hbody
        exact hbody
    next hk =>
      have hzero : captureCount [opener] = 0 := by simp [captureCount, Token.captureName?, hk]
      have hbody := hinside n (by omega) [.atomic] [] hzero.symm
      rwa [hzero, Nat.zero_add, List.append_nil] at hbody
    next hcapture _ =>
      have hzero : captureCount [opener] = 0 := by
        simp [captureCount, captureName?_eq_none hcapture]
      have hbody := hinside n (by omega) [] [] hzero.symm
      rwa [hzero, Nat.zero_add, List.append_nil] at hbody
  | repeated body q _ _ _ hq ih =>
    rw [phraseTokens_singleton, landmarksAll_singleton] at *
    obtain ⟨possessive, hq⟩ := Kind.exists_of_isQuantifier hq
    have hzero : captureCount [q] = 0 := by simp [captureCount, Token.captureName?, hq]
    rw [Phrase.tokens, captureCount_append, hzero, Nat.add_zero] at hn
    obtain ⟨o, b, hb⟩ := ih n hn
    have hall : ∀ first, openingCount first = 0 →
        HasCapture (body.tokens ++ [q]) (first ++ body.landmarks) n o b := by
      intro first hfirst
      simpa using hb.surrounded [] [q] first [] hfirst
    rw [Phrase.tokens, Phrase.landmarks, repeatedLandmarks]
    split
    · exact ⟨o, b, hall [.atomic] rfl⟩
    · exact ⟨o, b, hall [] rfl⟩

/-- The landmarks of the region that a marker names. -/
def regionLandmarks (ls : List Landmark) : Kind → List Landmark
  | .groupRecursion (.number n) _ => insideCapture (n - 1) ls
  | _ => ls

/-- How many captures open before the region that a marker names. -/
def regionStart : Kind → Nat
  | .groupRecursion (.number n) _ => n
  | _ => 0

theorem eq_of_phraseTokens_eq {qs : List Phrase} (hp : AllWellFormed ps) (hq : AllWellFormed qs)
    (h : phraseTokens ps = phraseTokens qs) : ps = qs := by
  have hparse := parse_phraseTokens hp
  rw [h, parse_phraseTokens hq] at hparse
  exact (Option.some.inj hparse).symm

/-- The name of a capture that opens, or nothing at a marker. -/
def stop? : Landmark → Option (Option (Option (List Char)))
  | .opening title => some (some title)
  | .marker _ => some none
  | _ => none

/-- How many captures open before the first marker. -/
def headCount (ls : List Landmark) : Nat :=
  ((ls.filterMap stop?).takeWhile (·.isSome)).length

theorem bind_stop? (h : t.kind.isMarker = false) :
    (landmark? t).bind stop? = t.captureName?.map some := by
  rcases t with ⟨kind, text⟩
  cases kind <;> first | rfl | cases h

theorem landmark?_marker (h : t.kind.isMarker) : landmark? t = some (.marker t.kind) := by
  rcases t with ⟨kind, text⟩
  cases kind <;> first | rfl | cases h

namespace Cut

variable {marker marker' : Token} {region qs region' : List Phrase} {r r' : Recursion}

/-- The tokens before the region, in it and after it. -/
theorem tokens_eq_parts (h : Cut ps marker region r) : phraseTokens ps
    = r.before.map (·.token) ++ (phraseTokens region ++ r.after.map (·.token)) := by
  rw [h.split, h.inside]
  simp

/-- A region with the tokens of phrases consists of these phrases. -/
theorem region_eq (h : Cut ps marker region r) (before after : List Token) (hw : AllWellFormed body)
    (htokens : phraseTokens ps = before ++ (phraseTokens body ++ after))
    (hbefore : r.before.length = before.length)
    (hlength : r.head.length + 1 + r.tail.length = (phraseTokens body).length) :
    region = body ∧ r.before.map (·.token) = before := by
  have hsplit := h.tokens_eq_parts.symm.trans htokens
  obtain ⟨hfirst, hrest⟩ := List.append_inj hsplit (by rw [List.length_map, hbefore])
  have hregion := (List.append_inj hrest (by
    rw [← hlength, h.inside]
    simp
    omega)).1
  exact ⟨eq_of_phraseTokens_eq h.wellFormed hw hregion, hfirst⟩

/-- The region of a marker for a capture is the inside of the capture. -/
theorem region_of_capture (h : Cut ps marker region r) (hr : FindsRegion ps marker r)
    (hkind : marker.kind = .groupRecursion (.number (n + 1)) depth)
    (hwf : (Phrase.group opener body).WellFormed) (hopens : opener.captureName?.isSome)
    {before after : List Token}
    (htokens : phraseTokens ps = before ++ ((Phrase.group opener body).tokens ++ after))
    (hcount : captureCount before = n) :
    region = body ∧ r.before.map (·.token) = before ++ [opener] := by
  have hlist : before ++ opener :: (phraseTokens body ++ closeToken :: after)
      = phraseTokens ps := by
    rw [htokens, Phrase.tokens]
    simp
  have hfind := findIdx?_opens before opener (phraseTokens body ++ closeToken :: after) hopens
  rw [hlist, hcount] at hfind
  have hclose := matchingClose_group hwf before after
  rw [← htokens] at hclose
  rw [FindsRegion, hkind, Reduction.region, hfind] at hr
  dsimp only at hr
  rw [hclose] at hr
  dsimp only at hr
  split at hr
  next =>
    obtain ⟨hbefore, hlength⟩ := Prod.mk.inj (Except.ok.inj hr)
    rw [Phrase.WellFormed] at hwf
    exact h.region_eq (before ++ [opener]) (closeToken :: after) hwf.2 (by rw [← hlist]; simp)
      (by rw [← hbefore, List.length_append, List.length_singleton]) (by omega)
  next => cases hr

/-- A marker for a capture has the number of one. -/
theorem number_le_captureCount (hr : FindsRegion ps marker r)
    (hkind : marker.kind = .groupRecursion (.number n) depth) :
    1 ≤ n ∧ n ≤ captureCount (phraseTokens ps) := by
  rw [FindsRegion, hkind, Reduction.region] at hr
  split at hr
  next => cases hr
  next start hstart =>
    have hsome := congrArg Option.isSome hstart
    rw [List.findIdx?_isSome, Option.isSome_some, List.any_eq_true] at hsome
    obtain ⟨t, ht, hopens⟩ := hsome
    have hmem : n ∈ (numberTokens 0 (phraseTokens ps)).filterMap (·.capture) :=
      List.mem_filterMap.2 ⟨t, ht, by simpa [NumberedToken.opens] using hopens⟩
    rw [captures_numberTokens, List.mem_range'_1] at hmem
    omega

section

variable (h : Cut ps marker region r)

include h

/-- **The region is found among the landmarks.** -/
theorem landmarks_region (hr : FindsRegion ps marker r) (hw : AllWellFormed ps)
    (hk : ∀ s depth, marker.kind ≠ .groupRecursion (.name s) depth) :
    landmarksAll region = regionLandmarks (landmarksAll ps) marker.kind ∧
      captureCount (r.before.map (·.token)) = regionStart marker.kind := by
  have hmarker := h.isMarker
  cases hkind : marker.kind with
  | recursion depth =>
    rw [FindsRegion, hkind, Reduction.region] at hr
    · obtain ⟨hbefore, hlength⟩ := Prod.mk.inj (Except.ok.inj hr)
      obtain ⟨rfl, hempty⟩ := h.region_eq [] [] hw (by simp) hbefore.symm (by omega)
      exact ⟨rfl, by rw [hempty]; rfl⟩
    · simp
  | groupRecursion target depth =>
    cases target with
    | name s => exact absurd hkind (hk s depth)
    | number n =>
      obtain ⟨hpos, hle⟩ := number_le_captureCount hr hkind
      obtain ⟨m, rfl⟩ := Nat.exists_eq_add_of_le' hpos
      obtain ⟨opener, body, hcapture⟩ := exists_hasCapture ps hw m hle
      obtain ⟨before, after, htokens, hcount⟩ := hcapture.tokens
      obtain ⟨first, title, last, hlandmarks, hopening⟩ := hcapture.landmarks
      obtain ⟨rfl, hparts⟩ :=
        h.region_of_capture hr hkind hcapture.wellFormed hcapture.opens htokens hcount
      refine ⟨?_, ?_⟩
      · rw [regionLandmarks, Nat.add_sub_cancel, hlandmarks, ← hopening, insideCapture_append,
          upToClosing_landmarksAll, upToClosing, List.append_nil]
      · rw [hparts, captureCount_append, hcount, regionStart]
        simp [captureCount_cons, hcapture.opens]
  | _ =>
    rw [hkind] at hmarker
    cases hmarker

/-- As many captures open in the region before the marker as among its landmarks. -/
theorem captureCount_head :
    captureCount (r.head.map (·.token)) = headCount (landmarksAll region) := by
  have hnone : ∀ t ∈ r.head.map (·.token), t.kind.isMarker = false := by
    have hbefore := h.not_marker.1
    rw [List.map_append, List.filter_append, List.append_eq_nil_iff] at hbefore
    simpa using List.filter_eq_nil_iff.1 hbefore.2
  have hhead : ((r.head.map (·.token)).filterMap landmark?).filterMap stop?
      = ((r.head.map (·.token)).filterMap (·.captureName?)).map some := by
    rw [List.filterMap_filterMap, List.map_filterMap]
    exact List.filterMap_congr fun t ht => bind_stop? (hnone t ht)
  have hsome : ∀ o ∈ ((r.head.map (·.token)).filterMap (·.captureName?)).map some,
      o.isSome = true := by
    intro o ho
    obtain ⟨_, -, rfl⟩ := List.mem_map.1 ho
    rfl
  have hstop : stop? (.marker marker.kind) = some none := rfl
  rw [headCount, filterMap_landmarksAll rfl region h.wellFormed (.inl rfl), h.inside,
    List.filterMap_append, List.filterMap_cons_some (landmark?_marker h.isMarker),
    List.filterMap_append, List.filterMap_cons_some hstop, hhead, List.takeWhile_append_of_pos hsome,
    List.takeWhile_cons_of_neg Bool.false_ne_true, List.append_nil, List.length_map, captureCount]

/-- How many captures there are in each part. -/
theorem length_captures :
    r.beforeCaptures.length = captureCount (r.before.map (·.token)) ∧
      r.headCaptures.length = captureCount (r.head.map (·.token)) ∧
      r.headCaptures.length + r.tailCaptures.length = captureCount (phraseTokens region) := by
  have hpart : ∀ ts : List NumberedToken,
      (∀ t ∈ ts, t ∈ r.before ++ (r.head ++ (r.tail ++ r.after))) →
      (ts.filterMap (·.capture)).length = captureCount (ts.map (·.token)) := by
    intro ts hts
    rw [captureCount, List.filterMap_map, List.length_filterMap_eq_countP,
      List.length_filterMap_eq_countP]
    exact List.countP_congr fun t ht => by
      rw [h.isSome_capture t (hts t ht)]
      rfl
  have hhead := hpart r.head fun t ht => by simp [ht]
  have htail := hpart r.tail fun t ht => by simp [ht]
  refine ⟨hpart r.before fun t ht => by simp [ht], hhead, ?_⟩
  rw [h.inside, captureCount_append, captureCount_cons, captureName?_of_isMarker h.isMarker]
  simp only [Recursion.headCaptures, Recursion.tailCaptures, hhead, htail, Option.isSome_none,
    Bool.false_eq_true, if_false, Nat.zero_add]

/-- Patterns with the same landmarks have the same marker. -/
theorem kind_eq (h' : Cut qs marker' region' r') (hp : AllWellFormed ps) (hq : AllWellFormed qs)
    (hl : landmarksAll qs = landmarksAll ps) : marker'.kind = marker.kind := by
  have hkinds := markers_landmarksAll hq
  rw [hl, markers_landmarksAll hp, h.unique, h'.unique] at hkinds
  exact (List.cons.inj hkinds).1.symm

/-- **Patterns with the same landmarks are cut alike.** -/
theorem captures_alike (h' : Cut qs marker' region' r') (hp : AllWellFormed ps)
    (hq : AllWellFormed qs) (hl : landmarksAll qs = landmarksAll ps)
    (hregion : landmarksAll region' = landmarksAll region)
    (hstart : captureCount (r'.before.map (·.token)) = captureCount (r.before.map (·.token))) :
    r'.beforeCaptures = r.beforeCaptures ∧ r'.headCaptures = r.headCaptures ∧
      r'.tailCaptures = r.tailCaptures ∧ r'.afterCaptures = r.afterCaptures := by
  have hrange := h.range_eq
  rw [← openingCount_landmarksAll hp, ← hl, openingCount_landmarksAll hq, h'.range_eq] at hrange
  obtain ⟨hb, hh, hall⟩ := h.length_captures
  obtain ⟨hb', hh', hall'⟩ := h'.length_captures
  have hhead : r'.headCaptures.length = r.headCaptures.length := by
    rw [hh, hh', h.captureCount_head, h'.captureCount_head, hregion]
  have htail : r'.tailCaptures.length = r.tailCaptures.length := by
    have hcount := openingCount_landmarksAll h'.wellFormed
    rw [hregion, openingCount_landmarksAll h.wellFormed] at hcount
    omega
  obtain ⟨hbefore, hrest⟩ := List.append_inj hrange (by rw [hb, hb', hstart])
  obtain ⟨hinside, hafter⟩ := List.append_inj hrest (by
    rw [List.length_append, List.length_append, hhead, htail])
  obtain ⟨hfirst, hsecond⟩ := List.append_inj hinside hhead
  exact ⟨hbefore, hfirst, hsecond, hafter⟩

/-- **Patterns with the same landmarks are unrolled alike.** -/
theorem unrolled_alike (h' : Cut qs marker' region' r') (hr : FindsRegion ps marker r)
    (hr' : FindsRegion qs marker' r') (hp : AllWellFormed ps) (hq : AllWellFormed qs)
    (hl : landmarksAll qs = landmarksAll ps)
    (hk : ∀ s depth, marker.kind ≠ .groupRecursion (.name s) depth) :
    r'.order = r.order ∧ r'.copies = r.copies ∧
      landmarksAll (r'.unrolled region' qs) = landmarksAll (r.unrolled region ps) := by
  have hkind := h.kind_eq h' hp hq hl
  obtain ⟨hregion, hstart⟩ := h.landmarks_region hr hp hk
  obtain ⟨hregion', hstart'⟩ := h'.landmarks_region hr' hq (by rwa [hkind])
  rw [hkind, hl, ← hregion] at hregion'
  rw [hkind, ← hstart] at hstart'
  have hdepth : r'.depth = r.depth := by rw [h.depth, h'.depth, hkind]
  obtain ⟨hbefore, hhead, htail, hafter⟩ := h.captures_alike h' hp hq hl hregion' hstart'
  refine ⟨?_, ?_, ?_⟩
  · rw [h.order_eq, h'.order_eq, hbefore, hhead, htail, hafter, hdepth]
  · rw [Recursion.copies, Recursion.copies, hdepth, r.captures_eq, r'.captures_eq, hhead, htail]
  · rw [landmarksAll_unrolled, landmarksAll_unrolled, hl, hregion', hdepth]

end

end Cut

/-! ## Added captures -/

/-- Whether a capture is added: `true` where an atomic group begins, `false` where a capture opens. -/
def added? : Landmark → Option Bool
  | .opening _ => some false
  | .atomic => some true
  | _ => none

/-- The captures of an unfolded pattern, by whether they are added. -/
def keysOf : Nat → Nat → List Bool → List CaptureKey
  | _, _, [] => []
  | c, n, false :: bs => .existing (c + 1) 0 :: keysOf (c + 1) n bs
  | c, n, true :: bs => .injected n :: keysOf c (n + 1) bs

theorem unfoldKeys_eq (c n : Nat) (ts : List Token) :
    unfoldKeys c n ts = keysOf c n ((ts.filterMap landmark?).filterMap added?) := by
  fun_induction unfoldKeys c n ts with
  | case1 => rfl
  | case2 c n t ts name hk ih =>
    have hl : landmark? t = some (.opening name) := by rw [landmark?, hk]
    rw [ih, List.filterMap_cons_some hl]
    rfl
  | case3 c n t ts hk ih =>
    have hl : landmark? t = some .atomic := by rw [landmark?, hk]
    rw [ih, List.filterMap_cons_some hl]
    rfl
  | case4 c n t ts hc ha ih =>
    rw [ih]
    cases hl : landmark? t with
    | none => rw [List.filterMap_cons_none hl]
    | some l =>
      have hmarker : added? l = none := by
        unfold landmark? at hl
        split at hl
        next hk => exact absurd hk (hc _)
        next hk => exact absurd hk ha
        next =>
          split at hl
          · cases hl
            rfl
          · cases hl
      rw [List.filterMap_cons_some hl, List.filterMap_cons_none hmarker]

/-- The captures of an unfolded pattern depend on the landmarks of the pattern. -/
theorem unfoldedOrder_eq (h : AllWellFormed ps)
    (hp : ∀ t ∈ phraseTokens ps, t.kind ≠ .quantifier true) :
    unfoldedOrder ps = keysOf 0 0 ((landmarksAll ps).filterMap added?) := by
  rw [unfoldedOrder, unfoldKeys_eq, filterMap_landmarksAll rfl ps h (.inr hp)]

/-- Captures are added exactly if there are atomic groups. -/
theorem any_atomic_iff (ps : List Phrase) :
    (phraseTokens ps).any (·.kind == .atomicOpen) = true ↔ .injected 0 ∈ unfoldedOrder ps := by
  rw [unfoldedOrder, injected_mem_unfoldKeys, List.countP_pos_iff, List.any_eq_true]

end Diglot.Reduction
