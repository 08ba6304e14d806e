import Diglot.Proofs.Emitted.Phrase

/-!
# Tallies

What there is in a pattern, counted: the captures with their names, the recursion markers with the
captures around each, the atomic groups and the possessive quantifiers. The tally of parts that
follow each other is the tally of the first with that of the second after it, where the captures of
the second count on from those of the first.
-/

namespace Diglot.Emitted

/-- What there is in a pattern. -/
@[ext]
structure Tally where
  /-- The names of the captures, in opening order. -/
  titles : List (Option (List Char)) := []
  /-- The recursion markers, each with the captures around it, by how many captures opened before
  them. -/
  markers : List (Kind × List Nat) := []
  /-- How many atomic groups there are. -/
  atomics : Nat := 0
  /-- How many possessive quantifiers there are. -/
  possessives : Nat := 0
  deriving DecidableEq, Repr

namespace Tally

/-- A marker in a pattern before which `n` more captures open. -/
def later (n : Nat) (m : Kind × List Nat) : Kind × List Nat :=
  (m.1, m.2.map (· + n))

instance : Append Tally where
  append a b :=
    { titles := a.titles ++ b.titles
      markers := a.markers ++ b.markers.map (later a.titles.length)
      atomics := a.atomics + b.atomics
      possessives := a.possessives + b.possessives }

@[simp] theorem titles_append (a b : Tally) : (a ++ b).titles = a.titles ++ b.titles := rfl

@[simp] theorem markers_append (a b : Tally) :
    (a ++ b).markers = a.markers ++ b.markers.map (later a.titles.length) := rfl

@[simp] theorem atomics_append (a b : Tally) : (a ++ b).atomics = a.atomics + b.atomics := rfl

@[simp] theorem possessives_append (a b : Tally) :
    (a ++ b).possessives = a.possessives + b.possessives := rfl

theorem later_later (m n : Nat) (k : Kind × List Nat) : later m (later n k) = later (m + n) k := by
  simp only [later, List.map_map]
  congr 1
  refine List.map_congr_left fun i _ => ?_
  simp only [Function.comp_apply]
  omega

@[simp] theorem map_later_zero (ms : List (Kind × List Nat)) : ms.map (later 0) = ms := by
  simp [later, List.map_id'']

@[simp] theorem nil_append (a : Tally) : ({} : Tally) ++ a = a := by
  ext1 <;> simp

@[simp] theorem append_nil (a : Tally) : a ++ ({} : Tally) = a := by
  ext1 <;> simp

theorem append_assoc (a b c : Tally) : a ++ b ++ c = a ++ (b ++ c) := by
  ext1
  · simp
  · simp [Function.comp_def, later_later]
  · simp [Nat.add_assoc]
  · simp [Nat.add_assoc]

/-- The tally of a capture with the tally of its inside. -/
def capture (title : Option (List Char)) (inside : Tally) : Tally :=
  { inside with
    titles := title :: inside.titles
    markers := inside.markers.map fun m => (m.1, 0 :: m.2.map (· + 1)) }

/-- The tally of an atomic group with the tally of its inside. -/
def atomic (inside : Tally) : Tally :=
  { inside with atomics := inside.atomics + 1 }

/-- The tally of a part with its quantifier. -/
def repeated (possessive : Bool) (inside : Tally) : Tally :=
  { inside with possessives := inside.possessives + possessive.toNat }

end Tally

/-! ## Tallies of phrases -/

/-- What a leaf adds. -/
def leafTally (t : Token) : Tally :=
  if t.kind.isMarker then { markers := [(t.kind, [])] } else {}

/-- What a group adds to the tally of its inside. -/
def groupTally (opener : Token) (inside : Tally) : Tally :=
  match opener.kind with
  | .captureOpen title => inside.capture title
  | .atomicOpen => inside.atomic
  | _ => inside

mutual

/-- What there is in a phrase. -/
def Phrase.tally : Phrase → Tally
  | .leaf t => leafTally t
  | .group opener body => groupTally opener (tallyAll body)
  | .repeated body q => body.tally.repeated (q.kind = .quantifier true)

/-- What there is in phrases. -/
def tallyAll : List Phrase → Tally
  | [] => {}
  | p :: ps => p.tally ++ tallyAll ps

end

@[simp] theorem tallyAll_append (ps qs : List Phrase) :
    tallyAll (ps ++ qs) = tallyAll ps ++ tallyAll qs := by
  induction ps with
  | nil => simp [tallyAll]
  | cons p ps ih => simp [tallyAll, ih, Tally.append_assoc]

@[simp] theorem tallyAll_singleton (p : Phrase) : tallyAll [p] = p.tally := by
  simp [tallyAll]

/-! ## Tallies and tokens -/

/-- How many captures the tokens open. -/
def captureCount (ts : List Token) : Nat :=
  (ts.filterMap (·.captureName?)).length

@[simp] theorem captureCount_nil : captureCount [] = 0 := rfl

@[simp] theorem captureCount_append (ts us : List Token) :
    captureCount (ts ++ us) = captureCount ts + captureCount us := by
  simp [captureCount]

theorem captureName?_eq_none {t : Token} (h : ∀ name, t.kind ≠ .captureOpen name) :
    t.captureName? = none := by
  unfold Token.captureName?
  split
  next hk => exact absurd hk (h _)
  next => rfl

theorem captureCount_cons (t : Token) (ts : List Token) :
    captureCount (t :: ts) = (if t.captureName?.isSome then 1 else 0) + captureCount ts := by
  unfold captureCount
  cases h : t.captureName? with
  | none => simp [List.filterMap_cons_none h]
  | some name => simp [List.filterMap_cons_some h, Nat.add_comm]

/-- Whether a token stands for a capture of the host: it opens a capture or an atomic group, or it
is a possessive quantifier, which stands for an atomic group. -/
def Kind.needsCapture : Kind → Bool
  | .captureOpen _ | .atomicOpen | .quantifier true => true
  | _ => false

/-- How many captures the host needs for the tokens. -/
def hostCaptureCount (ts : List Token) : Nat :=
  ts.countP (·.kind.needsCapture)

@[simp] theorem hostCaptureCount_append (ts us : List Token) :
    hostCaptureCount (ts ++ us) = hostCaptureCount ts + hostCaptureCount us :=
  List.countP_append

theorem captureCount_le (ts : List Token) : captureCount ts ≤ hostCaptureCount ts := by
  rw [captureCount, List.length_filterMap_eq_countP, hostCaptureCount]
  refine List.countP_mono_left fun t _ h => ?_
  unfold Token.captureName? at h
  split at h
  next hk => rw [hk, Kind.needsCapture]
  next => cases h

theorem hostCaptureCount_eq (ts : List Token) : hostCaptureCount ts = captureCount ts
    + ts.countP (·.kind == .atomicOpen) + ts.countP (·.kind == .quantifier true) := by
  induction ts with
  | nil => rfl
  | cons t ts ih =>
    rw [hostCaptureCount] at ih ⊢
    simp only [captureCount_cons, List.countP_cons, ih, Token.captureName?]
    rcases t with ⟨kind, text⟩
    cases kind with
    | quantifier possessive =>
      cases possessive with
      | false => simp [Kind.needsCapture]
      | true =>
        simp [Kind.needsCapture]
        omega
    | captureOpen name | atomicOpen =>
      simp [Kind.needsCapture]
      omega
    | _ => simp [Kind.needsCapture]

/-- The tally says what is among the tokens. -/
structure Tally.Counts (a : Tally) (ts : List Token) : Prop where
  titles : a.titles = ts.filterMap (·.captureName?)
  markers : a.markers.map (·.1) = (ts.filter (·.kind.isMarker)).map (·.kind)
  atomics : a.atomics = ts.countP (·.kind == .atomicOpen)
  possessives : a.possessives = ts.countP (·.kind == .quantifier true)

theorem Tally.Counts.append {a b : Tally} {ts us : List Token} (ha : a.Counts ts)
    (hb : b.Counts us) : (a ++ b).Counts (ts ++ us) where
  titles := by simp [ha.titles, hb.titles]
  markers := by
    rw [Tally.markers_append, List.map_append, List.filter_append, List.map_append, ha.markers,
      ← hb.markers, List.map_map]
    rfl
  atomics := by simp [ha.atomics, hb.atomics]
  possessives := by simp [ha.possessives, hb.possessives]

theorem counts_nil : Tally.Counts {} [] where
  titles := rfl
  markers := rfl
  atomics := rfl
  possessives := rfl

theorem counts_leaf {t : Token} (h : t.kind.isLeaf) : (leafTally t).Counts [t] := by
  rcases t with ⟨kind, text⟩
  cases kind <;> first | exact ⟨rfl, rfl, rfl, rfl⟩ | exact absurd h (by simp [Kind.isLeaf, Kind.isOpen])

theorem counts_group {opener : Token} (h : opener.kind.isOpen) {a : Tally} {ts : List Token}
    (ha : a.Counts ts) : (groupTally opener a).Counts (opener :: (ts ++ [closeToken])) := by
  have hbody : a.Counts (ts ++ [closeToken]) := by
    have hclose : Tally.Counts {} [closeToken] := ⟨rfl, rfl, rfl, rfl⟩
    simpa using ha.append hclose
  rcases opener with ⟨kind, text⟩
  cases kind with
  | captureOpen name =>
    refine ⟨?_, ?_, hbody.atomics, hbody.possessives⟩
    · simp [groupTally, Tally.capture, Token.captureName?, hbody.titles]
    · simpa [groupTally, Tally.capture, Function.comp_def, Kind.isMarker] using hbody.markers
  | groupOpen | lookOpen => exact ⟨hbody.titles, hbody.markers, hbody.atomics, hbody.possessives⟩
  | atomicOpen =>
    refine ⟨hbody.titles, hbody.markers, ?_, hbody.possessives⟩
    simp [groupTally, Tally.atomic, hbody.atomics]
  | _ => exact absurd h (by simp [Kind.isOpen])

theorem counts_repeated {q : Token} (h : q.kind.isQuantifier) {a : Tally} {ts : List Token}
    (ha : a.Counts ts) : (a.repeated (q.kind = .quantifier true)).Counts (ts ++ [q]) := by
  rcases q with ⟨kind, text⟩
  obtain ⟨possessive, rfl⟩ := Kind.exists_of_isQuantifier h
  refine ⟨?_, ?_, ?_, ?_⟩
  · simp [Tally.repeated, ha.titles, Token.captureName?]
  · simp [Tally.repeated, ha.markers, Kind.isMarker]
  · simp [Tally.repeated, ha.atomics]
  · cases possessive <;> simp [Tally.repeated, ha.possessives]

/-- **The tally of well-formed phrases counts their tokens.** -/
theorem counts_tallyAll (ps : List Phrase) (h : AllWellFormed ps) :
    (tallyAll ps).Counts (phraseTokens ps) := by
  induction ps, h using AllWellFormed.induction with
  | nil => exact counts_nil
  | cons p ps _ _ _ ihp ihps => simpa [tallyAll, phraseTokens] using ihp.append ihps
  | leaf t _ ht => simpa [Phrase.tally, Phrase.tokens] using counts_leaf ht
  | group opener body _ _ ho ih => simpa [Phrase.tally, Phrase.tokens] using counts_group ho ih
  | repeated body q _ _ _ hq ih => simpa [Phrase.tally, Phrase.tokens] using counts_repeated hq ih

theorem counts_tally {p : Phrase} (h : p.WellFormed) : p.tally.Counts p.tokens := by
  simpa using counts_tallyAll [p] (allWellFormed_singleton.2 h)

/-! ## The captures around a marker -/

/-- A capture among tokens, before which `n` others open and inside which there is a token of kind
`k`. -/
def CaptureAround (ts : List Token) (n : Nat) (k : Kind) : Prop :=
  ∃ before opener body after title,
    ts = before ++ ((Phrase.group opener body).tokens ++ after) ∧
    (Phrase.group opener body).WellFormed ∧ opener.kind = .captureOpen title ∧
    (before.filterMap (·.captureName?)).length = n ∧ ∃ t ∈ phraseTokens body, t.kind = k

theorem CaptureAround.surrounded {ts : List Token} {n : Nat} {k : Kind} (h : CaptureAround ts n k)
    (before after : List Token) :
    CaptureAround (before ++ (ts ++ after)) (n + (before.filterMap (·.captureName?)).length) k := by
  obtain ⟨b, opener, body, a, title, rfl, hwf, hk, hn, ht⟩ := h
  refine ⟨before ++ b, opener, body, a ++ after, title, by simp, hwf, hk, ?_, ht⟩
  rw [List.filterMap_append, List.length_append, hn]
  omega

/-- **The captures that the tally has around a marker are around it.** -/
theorem captureAround_phraseTokens (ps : List Phrase) (h : AllWellFormed ps) (m : Kind × List Nat)
    (hm : m ∈ (tallyAll ps).markers) (n : Nat) (hn : n ∈ m.2) :
    CaptureAround (phraseTokens ps) n m.1 := by
  induction ps, h using AllWellFormed.induction generalizing m n with
  | nil => simp [tallyAll] at hm
  | cons p ps _ hp _ ihp ihps =>
    rw [tallyAll_singleton, phraseTokens_singleton] at ihp
    rw [tallyAll, Tally.markers_append, List.mem_append] at hm
    rcases hm with hm | hm
    · simpa [phraseTokens] using (ihp m hm n hn).surrounded [] (phraseTokens ps)
    · obtain ⟨m', hm', rfl⟩ := List.mem_map.mp hm
      obtain ⟨i, hi, rfl⟩ := List.mem_map.mp hn
      rw [(counts_tally (allWellFormed_singleton.1 hp)).titles]
      simpa [phraseTokens, Tally.later] using (ihps m' hm' i hi).surrounded p.tokens []
  | leaf t _ _ =>
    rw [tallyAll_singleton, Phrase.tally, leafTally] at hm
    split at hm
    · rw [List.mem_singleton.mp hm] at hn
      simp at hn
    · simp at hm
  | group opener body h hb _ ih =>
    rw [tallyAll_singleton, Phrase.tally, groupTally] at hm
    rw [phraseTokens_singleton]
    -- a capture around the marker inside the body is one in the group as well
    have hinside : ∀ m' ∈ (tallyAll body).markers, ∀ i ∈ m'.2, CaptureAround
        (Phrase.group opener body).tokens
        (i + ([opener].filterMap (·.captureName?)).length) m'.1 := fun m' hm' i hi =>
      (ih m' hm' i hi).surrounded [opener] [closeToken]
    split at hm
    next title hk =>
      obtain ⟨m', hm', rfl⟩ := List.mem_map.mp hm
      rcases List.mem_cons.mp hn with rfl | hn
      · have hkinds : m'.1 ∈ (tallyAll body).markers.map (·.1) := List.mem_map_of_mem hm'
        rw [(counts_tallyAll body hb).markers] at hkinds
        obtain ⟨t, ht, htk⟩ := List.mem_map.mp hkinds
        exact ⟨[], opener, body, [], title, by simp, h.1, hk, rfl, t, (List.mem_filter.mp ht).1, htk⟩
      · obtain ⟨i, hi, rfl⟩ := List.mem_map.mp hn
        simpa [Token.captureName?, hk] using hinside m' hm' i hi
    next hk => simpa [Token.captureName?, hk] using hinside m hm n hn
    next hk _ => simpa [captureName?_eq_none hk] using hinside m hm n hn
  | repeated body q _ _ _ _ ih =>
    rw [tallyAll_singleton] at ih hm
    simpa [Phrase.tokens] using (ih m hm n hn).surrounded [] [q]

end Diglot.Emitted
