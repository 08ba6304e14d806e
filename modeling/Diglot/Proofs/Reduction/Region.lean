import Diglot.Proofs.Emitted.Legible
import Diglot.Proofs.Emitted.Tally
import Diglot.Reduction.Recursion

/-!
# The region of a recursion marker

A marker for the whole pattern, or for a capture around it, cuts the pattern into the tokens before
the region, the region up to the marker, the region after the marker, and the tokens after the
region. The region itself is made of whole phrases.
-/

namespace Diglot.Reduction

open Emitted

variable {n i depth : Nat} {ts head tail : List Token} {t : NumberedToken} {d : Draft}
  {marker : Token} {ps : List Phrase}

@[simp] theorem map_token_numberTokens (n : Nat) (ts : List Token) :
    (numberTokens n ts).map (·.token) = ts := by
  induction ts generalizing n with
  | nil => rfl
  | cons t ts ih =>
    rw [numberTokens]
    split <;> simp [ih]

/-- The recursion slices the tokens at the marker and at its region. -/
structure Slices (ts : List Token) (marker : Token) (r : Recursion) : Prop where
  numbered : numberTokens 0 ts = r.before ++ (r.head ++ ⟨marker, none⟩ :: r.tail ++ r.after)
  isMarker : marker.kind.isMarker
  unique : ts.filter (·.kind.isMarker) = [marker]
  depth : r.depth = marker.kind.depth

/-- The recursion cuts the pattern at the marker and at its region, which is made of phrases. -/
structure Cut (ps : List Phrase) (marker : Token) (region : List Phrase) (r : Recursion) : Prop
    extends Slices (phraseTokens ps) marker r where
  inside : phraseTokens region = r.head.map (·.token) ++ marker :: r.tail.map (·.token)
  wellFormed : AllWellFormed region

/-- The region of the marker is that of the recursion. -/
def FindsRegion (ps : List Phrase) (marker : Token) (r : Recursion) : Prop :=
  region (phraseTokens ps) (r.before.length + r.head.length) marker.kind
    = .ok (r.before.length, r.before.length + (r.head.length + 1 + r.tail.length))

/-! ## Numbered tokens -/

@[simp] theorem length_numberTokens (n : Nat) (ts : List Token) :
    (numberTokens n ts).length = ts.length := by
  rw [← List.length_map (·.token), map_token_numberTokens]

theorem numberTokens_append (n : Nat) (ts us : List Token) :
    numberTokens n (ts ++ us) = numberTokens n ts ++ numberTokens (n + captureCount ts) us := by
  induction ts generalizing n with
  | nil => simp [numberTokens]
  | cons t ts ih =>
    rw [List.cons_append, numberTokens, numberTokens, captureCount_cons]
    split
    · rw [ih, List.cons_append]
      congr 3
      omega
    · rw [ih, List.cons_append]
      congr 3
      omega

/-- The captures are numbered one by one. -/
theorem captures_numberTokens (n : Nat) (ts : List Token) :
    (numberTokens n ts).filterMap (·.capture) = List.range' (n + 1) (captureCount ts) := by
  induction ts generalizing n with
  | nil => rfl
  | cons t ts ih =>
    rw [numberTokens, captureCount_cons]
    split
    · rw [Nat.add_comm 1, List.range'_succ, ← ih]
      rfl
    · rw [Nat.zero_add, ← ih]
      rfl

/-- A numbered token has a number exactly if it opens a capture. -/
theorem isSome_capture_of_mem (h : t ∈ numberTokens n ts) :
    t.capture.isSome = t.token.captureName?.isSome := by
  induction ts generalizing n with
  | nil => cases h
  | cons u us ih =>
    rw [numberTokens] at h
    split at h
    next hu =>
      rcases List.mem_cons.1 h with rfl | h
      · exact hu.symm
      · exact ih h
    next hu =>
      rcases List.mem_cons.1 h with rfl | h
      · simpa using hu
      · exact ih h

/-- The name of a numbered token is the one with its number. -/
theorem getElem?_of_mem_numberTokens (h : t ∈ numberTokens n ts) (hi : t.capture = some i) :
    n < i ∧ (ts.filterMap (·.captureName?))[i - n - 1]? = t.token.captureName? := by
  induction ts generalizing n with
  | nil => cases h
  | cons u us ih =>
    rw [numberTokens] at h
    split at h
    next hu =>
      obtain ⟨name, hname⟩ := Option.isSome_iff_exists.1 hu
      rw [List.filterMap_cons_some hname]
      rcases List.mem_cons.1 h with rfl | h
      · obtain rfl : n + 1 = i := Option.some.inj hi
        simp [hname]
      · obtain ⟨hlt, hget⟩ := ih h
        have hindex : i - n - 1 = i - (n + 1) - 1 + 1 := by omega
        rw [hindex, List.getElem?_cons_succ]
        exact ⟨by omega, hget⟩
    next hu =>
      rw [List.filterMap_cons_none (by simpa using hu)]
      rcases List.mem_cons.1 h with rfl | h
      · cases hi
      · exact ih h

/-- The capture with a number opens where that many captures have opened before. -/
theorem findIdx?_opens (before : List Token) (opener : Token) (rest : List Token)
    (ho : opener.captureName?.isSome) :
    (numberTokens 0 (before ++ opener :: rest)).findIdx?
      (·.opens (.number (captureCount before + 1))) = some before.length := by
  rw [numberTokens_append, List.findIdx?_append, Nat.zero_add]
  have hbefore : (numberTokens 0 before).findIdx?
      (·.opens (.number (captureCount before + 1))) = none := by
    rw [List.findIdx?_eq_none_iff]
    intro t ht
    rw [NumberedToken.opens, beq_eq_false_iff_ne]
    intro hc
    have hmem : captureCount before + 1 ∈ (numberTokens 0 before).filterMap (·.capture) :=
      List.mem_filterMap.2 ⟨t, ht, hc⟩
    rw [captures_numberTokens, List.mem_range'_1] at hmem
    omega
  rw [hbefore, numberTokens, if_pos ho, List.findIdx?_cons]
  simp [NumberedToken.opens]

/-! ## Cutting a pattern -/

/-- The slices of a list that is put together from five parts. -/
theorem slices {α : Type} (a b : List α) (m : α) (c d : List α) :
    (a ++ (b ++ m :: c ++ d)).take a.length = a ∧
    ((a ++ (b ++ m :: c ++ d)).take (a.length + b.length)).drop a.length = b ∧
    ((a ++ (b ++ m :: c ++ d)).take (a.length + (b.length + 1 + c.length))).drop
      (a.length + b.length + 1) = c ∧
    (a ++ (b ++ m :: c ++ d)).drop (a.length + (b.length + 1 + c.length)) = d := by
  refine ⟨by simp, ?_, ?_, ?_⟩
  · have hstop : a.length + b.length = (a ++ b).length := by simp
    have hsplit : a ++ (b ++ m :: c ++ d) = a ++ b ++ (m :: c ++ d) := by simp
    rw [hstop, hsplit, List.take_left, List.drop_left]
  · have hstop : a.length + (b.length + 1 + c.length) = (a ++ (b ++ m :: c)).length := by
      simp
      omega
    have hstart : a.length + b.length + 1 = (a ++ (b ++ [m])).length := by
      simp
      omega
    have hsplit : a ++ (b ++ m :: c) = a ++ (b ++ [m]) ++ c := by simp
    rw [← List.append_assoc a, hstop, List.take_left, hstart, hsplit, List.drop_left]
  · have hstop : a.length + (b.length + 1 + c.length) = (a ++ (b ++ m :: c)).length := by
      simp
      omega
    rw [← List.append_assoc a, hstop, List.drop_left]

theorem captureName?_of_isMarker {t : Token} (h : t.kind.isMarker) : t.captureName? = none := by
  unfold Token.captureName?
  split
  next hk => simp [hk, Kind.isMarker] at h
  next => rfl

theorem filter_zipIdx_eq_nil (h : ts.filter (·.kind.isMarker) = []) {k : Nat} :
    (ts.zipIdx k).filter (·.1.kind.isMarker) = [] := by
  rw [List.filter_eq_nil_iff] at h ⊢
  rintro ⟨t, i⟩ ht
  exact h t (List.fst_mem_of_mem_zipIdx ht)

namespace Slices

variable {r : Recursion}

section

variable (h : Slices ts marker r)

include h

theorem split : ts
    = (r.before ++ r.head).map (·.token) ++ marker :: (r.tail ++ r.after).map (·.token) := by
  rw [← map_token_numberTokens 0 ts, h.numbered]
  simp

/-- Only the marker is one. -/
theorem not_marker :
    ((r.before ++ r.head).map (·.token)).filter (·.kind.isMarker) = [] ∧
      ((r.tail ++ r.after).map (·.token)).filter (·.kind.isMarker) = [] := by
  have hunique := h.unique
  rw [h.split, List.filter_append,
    List.filter_cons_of_pos (p := fun t : Token => t.kind.isMarker) h.isMarker] at hunique
  have hlength := congrArg List.length hunique
  simp only [List.length_append, List.length_cons, List.length_nil] at hlength
  exact ⟨List.length_eq_zero_iff.1 (by omega), List.length_eq_zero_iff.1 (by omega)⟩

/-- The captures of the pattern, part by part. -/
theorem captures : List.range' 1 (captureCount ts)
    = r.before.filterMap (·.capture) ++ (r.captures ++ r.after.filterMap (·.capture)) := by
  have hnumbers := captures_numberTokens 0 ts
  rw [← hnumbers, h.numbered]
  simp [Recursion.captures]

theorem mem_numberTokens (ht : t ∈ r.before ++ (r.head ++ (r.tail ++ r.after))) :
    t ∈ numberTokens 0 ts := by
  rw [h.numbered]
  simp only [List.mem_append, List.mem_cons] at ht ⊢
  tauto

/-- The numbers of captures stand at the tokens that open them. -/
theorem isSome_capture :
    ∀ t ∈ r.before ++ (r.head ++ (r.tail ++ r.after)),
      t.capture.isSome = t.token.captureName?.isSome :=
  fun _ ht => isSome_capture_of_mem (h.mem_numberTokens ht)

/-- The names of captures stand at the tokens that open them. -/
theorem titles (ht : t ∈ r.before ++ (r.head ++ (r.tail ++ r.after))) (hi : t.capture = some i) :
    (ts.filterMap (·.captureName?))[i - 1]? = t.token.captureName? :=
  (getElem?_of_mem_numberTokens (h.mem_numberTokens ht) hi).2

/-- The marker is found where the pattern is cut. -/
theorem filter_zipIdx :
    ts.zipIdx.filter (·.1.kind.isMarker)
      = [(marker, r.before.length + r.head.length)] := by
  rw [h.split, List.zipIdx_append, List.zipIdx_cons, List.filter_append,
    filter_zipIdx_eq_nil h.not_marker.1,
    List.filter_cons_of_pos (p := fun x : Token × Nat => x.1.kind.isMarker) h.isMarker,
    filter_zipIdx_eq_nil h.not_marker.2]
  simp

theorem recursionOf
    (hr : region ts (r.before.length + r.head.length) marker.kind = .ok (r.before.length, r.before.length + (r.head.length + 1 + r.tail.length)))
    (hd : 1 ≤ r.depth) : Recursion.of ts (r.before.length + r.head.length) marker.kind = .ok r := by
  have hslices := slices r.before r.head ⟨marker, none⟩ r.tail r.after
  rw [← h.numbered] at hslices
  unfold Recursion.of
  rw [hr]
  simp only [bind, Except.bind, pure, Except.pure, ← h.depth]
  rw [if_neg (by omega), hslices.1, hslices.2.1, hslices.2.2.1, hslices.2.2.2]

/-- A pattern with one marker is unrolled where it is cut. -/
theorem unrollRecursion_eq
    (hr : region ts (r.before.length + r.head.length) marker.kind = .ok (r.before.length, r.before.length + (r.head.length + 1 + r.tail.length)))
    (hd : 1 ≤ r.depth) (hs : scan d.text = .ok ts) :
    unrollRecursion d = .ok (r.unroll d.layout) := by
  unfold unrollRecursion
  rw [hs]
  simp only [bind, Except.bind, h.filter_zipIdx, h.recursionOf hr hd, pure, Except.pure]

end

end Slices

/-- A pattern without a marker stays as it is. -/
theorem unrollRecursion_of_no_marker (hs : scan d.text = .ok ts)
    (h : ts.filter (·.kind.isMarker) = []) : unrollRecursion d = .ok d := by
  unfold unrollRecursion
  rw [hs]
  simp only [bind, Except.bind, filter_zipIdx_eq_nil h, pure, Except.pure]

/-! ## Finding the region -/

/-- The recursion of a pattern that is cut into these tokens. -/
def cutAt (before head tail after : List Token) (depth : Nat) : Recursion where
  before := numberTokens 0 before
  head := numberTokens (captureCount before) head
  tail := numberTokens (captureCount (before ++ head)) tail
  after := numberTokens (captureCount (before ++ head ++ tail)) after
  depth := depth

theorem slices_cutAt (before after : List Token)
    (htokens : ts = before ++ (head ++ marker :: tail ++ after)) (hm : marker.kind.isMarker)
    (hu : ts.filter (·.kind.isMarker) = [marker]) :
    Slices ts marker (cutAt before head tail after marker.kind.depth) where
  numbered := by
    rw [htokens]
    simp only [cutAt, numberTokens_append, numberTokens, captureName?_of_isMarker hm,
      Option.isSome_none, Bool.false_eq_true, if_false, Nat.zero_add, Nat.add_assoc,
      captureCount_append, captureCount_cons, List.append_assoc]
  isMarker := hm
  unique := hu
  depth := rfl

theorem cut_cutAt (before after : List Token) {region : List Phrase}
    (htokens : phraseTokens ps = before ++ (phraseTokens region ++ after))
    (hinside : phraseTokens region = head ++ marker :: tail) (hw : AllWellFormed region)
    (hm : marker.kind.isMarker) (hu : (phraseTokens ps).filter (·.kind.isMarker) = [marker]) :
    Cut ps marker region (cutAt before head tail after marker.kind.depth) where
  toSlices := slices_cutAt before after (by rw [htokens, hinside]) hm hu
  inside := by simp [cutAt, hinside]
  wellFormed := hw

/-- The whole pattern is the region of a marker for it. -/
theorem exists_cut_whole (hw : AllWellFormed ps)
    (hm : (phraseTokens ps).filter (·.kind.isMarker) = [marker])
    (hk : marker.kind = .recursion depth) :
    ∃ region r, Cut ps marker region r ∧ FindsRegion ps marker r := by
  have hmem : marker ∈ (phraseTokens ps).filter (·.kind.isMarker) := by simp [hm]
  obtain ⟨head, tail, hsplit⟩ := List.append_of_mem (List.mem_filter.1 hmem).1
  refine ⟨ps, _, cut_cutAt [] [] (by simp) hsplit hw
    (List.mem_filter.1 hmem).2 hm, ?_⟩
  rw [FindsRegion, hk, region, hsplit]
  · simp [cutAt, numberTokens]
    omega
  · simp

/-- The inside of a capture around the marker is the region of a marker for the capture. -/
theorem exists_cut_group (hm : (phraseTokens ps).filter (·.kind.isMarker) = [marker])
    (hk : marker.kind = .groupRecursion (.number (n + 1)) depth)
    (ha : CaptureAround (phraseTokens ps) n marker.kind) :
    ∃ region r, Cut ps marker region r ∧ FindsRegion ps marker r := by
  obtain ⟨before, opener, body, after, title, htokens, hwf, hopen, hcount, t, ht, htk⟩ := ha
  have hmarker : marker.kind.isMarker := by simp [hk, Kind.isMarker]
  -- the token with the kind of the marker is the marker
  have htm : t = marker := by
    have hmem : t ∈ (phraseTokens ps).filter (·.kind.isMarker) := by
      refine List.mem_filter.2 ⟨?_, by rw [htk]; exact hmarker⟩
      rw [htokens, Phrase.tokens]
      simp [ht]
    simpa [hm] using hmem
  subst htm
  obtain ⟨head, tail, hsplit⟩ := List.append_of_mem ht
  have hbody : AllWellFormed body := by
    rw [Phrase.WellFormed] at hwf
    exact hwf.2
  have hcut := cut_cutAt (before ++ [opener]) (closeToken :: after)
    (by rw [htokens, Phrase.tokens]; simp) hsplit hbody hmarker hm
  refine ⟨body, _, hcut, ?_⟩
  have hfind := findIdx?_opens before opener (phraseTokens body ++ closeToken :: after)
    (by simp [Token.captureName?, hopen])
  have hlist : before ++ opener :: (phraseTokens body ++ closeToken :: after) = phraseTokens ps := by
    rw [htokens, Phrase.tokens]
    simp
  rw [hlist, captureCount, hcount] at hfind
  have hclose := matchingClose_group hwf before after
  rw [← htokens] at hclose
  have hlength : (phraseTokens body).length = head.length + 1 + tail.length := by
    rw [hsplit]
    simp
    omega
  rw [FindsRegion, hk, region, hfind]
  dsimp only
  rw [hclose]
  dsimp only
  simp only [cutAt, length_numberTokens, List.length_append, List.length_singleton]
  rw [hlength, if_pos]
  · congr 2
    omega
  · simp
    omega

end Diglot.Reduction
