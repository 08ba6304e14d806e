import Diglot.Proofs.Host.UnfoldedReading
import Diglot.Proofs.Reduction.Origins
import Diglot.Proofs.Reduction.UnfoldedTokens

/-!
# Trees of unfolded patterns

The host reads the text of a pattern whose atomic groups were unfolded as the unfolded tree
(`exists_unfolded_tree`): captures have the numbers that the reduction gives them, and what was an
atomic group is a look ahead with a capture of its own and a reference to it.
-/

namespace Diglot.Reduction

open Emitted Host

variable {front order : List CaptureKey} {count k : Nat} {key key' : CaptureKey} {g : Grammar}
  {text : Text} {ts : List Host.Token} {us : List Emitted.Token} {pieces : List Piece}

/-! ## New numbers -/

theorem numberOf?_eq_referenceNumber (h : key ∈ order) :
    numberOf? order key = some (referenceNumber order key) := by
  obtain ⟨i, hi⟩ := exists_numberOf? h
  cases key <;> simp [referenceNumber, hi]

theorem referenceNumber_inj (h : key ∈ order) (h' : key' ∈ order)
    (he : referenceNumber order key = referenceNumber order key') : key = key' := by
  have hkey := getElem?_of_numberOf? (numberOf?_eq_referenceNumber h)
  have hkey' := getElem?_of_numberOf? (numberOf?_eq_referenceNumber h')
  rw [he, hkey'] at hkey
  exact (Option.some.inj hkey).symm

/-- The number of a capture is its place. -/
theorem referenceNumber_append {ks : List CaptureKey} (hn : order.Nodup)
    (ho : order = front ++ key :: ks) : referenceNumber order key = front.length + 1 := by
  have hplace : order[front.length]? = some key := by simp [ho]
  have hnumber := numberOf?_eq_some hn hplace
  rw [numberOf?_eq_referenceNumber (by simp [ho])] at hnumber
  exact Option.some.inj hnumber

namespace Reorders

/-- The numbers that captures get. -/
def renumbering (h : Reorders count order) : Renumbering where
  count := count
  total := order.length
  new k := referenceNumber order (.existing k 0)
  bounds k hpos hle := referenceNumber_le (h.mem.2 ⟨hpos, hle⟩)
  injective j k hj hj' hk hk' he := by
    have hsame := referenceNumber_inj (h.mem.2 ⟨hj, hj'⟩) (h.mem.2 ⟨hk, hk'⟩) he
    exact (CaptureKey.existing.inj hsame).1

theorem isAdded (h : Reorders count order) {n : Nat} (hn : .injected n ∈ order) :
    h.renumbering.IsAdded (referenceNumber order (.injected n)) := by
  obtain ⟨hpos, hle⟩ := referenceNumber_injected_le hn
  refine ⟨hpos, hle, fun k hk he => ?_⟩
  cases referenceNumber_inj (h.mem.2 hk) hn he

end Reorders

/-! ## Names of captures -/

namespace UnfoldsTo

variable {c n : Nat} {stack : List (Option Nat)} {ts' : List Host.Token} {ks : List CaptureKey}

/-- The unfolded tokens open one capture for each key. -/
theorem length_captureNames (h : UnfoldsTo order c n stack ts ts' ks) :
    (captureNames ts').length = ks.length := by
  induction h with
  | nil => rfl
  | ordinary ht h ih => rwa [captureNames_ordinary ht]
  | opens ha hc h ih => rwa [captureNames_opens hc]
  | captures h ih | atomic h ih => exact congrArg (· + 1) ih
  | closes h ih | closesAtomic h ih | refers hk h ih => exact ih

/-- The keys of captures that were there before stand for these. -/
theorem length_filter_isKept (h : UnfoldsTo order c n stack ts ts' ks) :
    (ks.filter (·.isKept)).length = (captureNames ts).length := by
  induction h with
  | nil => rfl
  | ordinary ht h ih => rwa [captureNames_ordinary ht]
  | opens ha hc h ih => rwa [captureNames_opens hc]
  | captures h ih => exact congrArg (· + 1) ih
  | atomic h ih | closes h ih | closesAtomic h ih | refers hk h ih => exact ih

/-- The captures with a name get new numbers. -/
theorem numbersNamed_eq (h : UnfoldsTo order c n stack ts ts' ks) (hn : order.Nodup)
    (ho : order = front ++ ks) (s : List Char) :
    numbersNamed s (captureNames ts') (front.length + 1)
      = (numbersNamed s (captureNames ts) (c + 1)).map (referenceNumber order <| .existing · 0) := by
  induction h generalizing front with
  | nil => rfl
  | ordinary ht h ih =>
    rw [captureNames_ordinary ht, captureNames_ordinary ht]
    exact ih ho
  | opens ha hc h ih =>
    rw [captureNames_opens hc, captureNames_opens hc]
    exact ih ho
  | @captures c n stack name ts ts' ks h ih =>
    have hplace := referenceNumber_append hn ho
    have hrest := @ih (front ++ [.existing (c + 1) 0]) (by simp [ho])
    rw [List.length_append, List.length_singleton] at hrest
    show numbersNamed s (name :: captureNames ts') _ = (numbersNamed s (name :: captureNames ts) _).map _
    rw [numbersNamed_cons, numbersNamed_cons, List.map_append, hrest]
    by_cases hname : name = some s
    · rw [if_pos hname, if_pos hname, List.map_singleton, hplace]
    · rw [if_neg hname, if_neg hname, List.map_nil]
  | @atomic c n stack ts ts' ks h ih =>
    have hrest := @ih (front ++ [.injected n]) (by simp [ho])
    rw [List.length_append, List.length_singleton] at hrest
    show numbersNamed s (none :: captureNames ts') _ = _
    rw [numbersNamed_cons, if_neg (by simp), List.nil_append]
    exact hrest
  | closes h ih | closesAtomic h ih | refers hk h ih => exact ih ho

theorem sameNames (hr : Reorders count order) (h : UnfoldsTo order 0 0 [] ts ts' order) :
    SameNames hr.renumbering (captureNames ts) (captureNames ts') where
  count := by
    rw [← h.length_filter_isKept, hr.kept, List.length_map, List.length_range']
    rfl
  total := h.length_captureNames
  named := h.numbersNamed_eq hr.nodup (List.nil_append order).symm

/-! ## Reading -/

/-- **The unfolded tokens are read side by side with the tokens of the pattern.** -/
theorem exists_follows (h : UnfoldsTo order c n stack ts ts' ks) (hr : Reorders count order)
    {g : Grammar} {names names' : List (Option (List Char))}
    (hnames : SameNames hr.renumbering names names') (ho : order = front ++ ks) {r r' s : Reading}
    (hopened : r.opened = c) (hopened' : r'.opened = front.length)
    (hf : Follows hr.renumbering (referenceNumber order <| .injected ·) stack r r')
    (hs : ts.foldlM (Reading.step g names) r = some s) :
    ∃ s', ts'.foldlM (Reading.step g names') r' = some s' ∧
      Follows hr.renumbering (referenceNumber order <| .injected ·) [] s s' := by
  induction h generalizing front r r' with
  | nil =>
    cases hs
    exact ⟨r', rfl, hf⟩
  | ordinary ht h ih =>
    rw [List.foldlM_cons] at hs ⊢
    obtain ⟨q, hq, hs⟩ := Option.bind_eq_some_iff.1 hs
    obtain ⟨q', hq', hnext, hsame, hsame'⟩ := hf.ordinary hnames ht hq
    rw [hq']
    exact ih ho (hsame.trans hopened) (hsame'.trans hopened') hnext hs
  | opens ha hc h ih =>
    rw [List.foldlM_cons] at hs ⊢
    obtain ⟨q, hq, hs⟩ := Option.bind_eq_some_iff.1 hs
    obtain ⟨q', hq', hnext, hsame, hsame'⟩ := hf.opens ha hc hq
    rw [hq']
    exact ih ho (hsame.trans hopened) (hsame'.trans hopened') hnext hs
  | @captures c n stack name ts ts' ks h ih =>
    rw [List.foldlM_cons] at hs ⊢
    obtain ⟨q, hq, hs⟩ := Option.bind_eq_some_iff.1 hs
    have hmem : CaptureKey.existing (c + 1) 0 ∈ order := by simp [ho]
    have hplace := referenceNumber_append hr.nodup ho
    obtain ⟨q', hq', hnext, hsame, hsame'⟩ := hf.captures hq (by rw [hopened]; exact hr.mem.1 hmem)
      (by rw [hopened, hopened']; exact hplace.symm)
    have ho' : order = (front ++ [.existing (c + 1) 0]) ++ ks := by simp [ho]
    rw [hq']
    exact ih ho' (by rw [hsame, hopened]) (by simp [hsame', hopened']) hnext hs
  | @atomic c n stack ts ts' ks h ih =>
    rw [List.foldlM_cons] at hs
    obtain ⟨q, hq, hs⟩ := Option.bind_eq_some_iff.1 hs
    have hmem : CaptureKey.injected n ∈ order := by simp [ho]
    have hplace := referenceNumber_append hr.nodup ho
    obtain ⟨q', hq', hnext, hsame, hsame'⟩ := hf.atomic hq (hr.isAdded hmem)
      (by rw [hopened']; exact hplace.symm)
    have ho' : order = (front ++ [.injected n]) ++ ks := by simp [ho]
    obtain ⟨s', hs', hlast⟩ := ih ho' (hsame.trans hopened) (by simp [hsame', hopened']) hnext hs
    refine ⟨s', ?_, hlast⟩
    exact (foldlM_step_append hq').trans hs'
  | closes h ih =>
    rw [List.foldlM_cons] at hs ⊢
    obtain ⟨q, hq, hs⟩ := Option.bind_eq_some_iff.1 hs
    obtain ⟨q', hq', hnext, hsame, hsame'⟩ := hf.closes hq
    rw [hq']
    exact ih ho (hsame.trans hopened) (hsame'.trans hopened') hnext hs
  | @closesAtomic c n i stack ts ts' ks h ih =>
    rw [List.foldlM_cons] at hs
    obtain ⟨q, hq, hs⟩ := Option.bind_eq_some_iff.1 hs
    obtain ⟨q', hq', hnext, hsame, hsame'⟩ := hf.closesAtomic hnames.total hq
    obtain ⟨s', hs', hlast⟩ := ih ho (hsame.trans hopened) (hsame'.trans hopened') hnext hs
    refine ⟨s', ?_, hlast⟩
    exact (foldlM_step_append hq').trans hs'
  | @refers c n k stack ts ts' ks hk h ih =>
    rw [List.foldlM_cons] at hs ⊢
    obtain ⟨q, hq, hs⟩ := Option.bind_eq_some_iff.1 hs
    obtain ⟨q', hq', hnext, hsame, hsame'⟩ := hf.refers hnames hk hq
    replace hq' : Reading.step g names' r' (.numbered (referenceNumber order (.existing k 0))) = some q' := hq'
    rw [hq']
    exact ih ho (hsame.trans hopened) (hsame'.trans hopened') hnext hs

end UnfoldsTo

/-! ## Numbers and layouts -/

/-- If nothing is added, no number changes. -/
theorem Reorders.keepsNumber (h : Reorders count order) (hall : ∀ key ∈ order, key.isKept)
    (hk : 0 < k) (hk' : k ≤ count) : KeepsNumber order (.existing k 0) := by
  have horder : order = (List.range' 1 count).map (.existing · 0) := by
    rw [← h.kept, List.filter_eq_self.2 hall]
  have hplace : order[k - 1]? = some (.existing k 0) := by
    rw [horder, List.getElem?_map, List.getElem?_range' (by omega)]
    simp only [Option.map_some]
    congr 2
    omega
  have hnumber := numberOf?_eq_some h.nodup hplace
  rw [numberOf?_eq_referenceNumber (h.mem.2 ⟨hk, hk'⟩)] at hnumber
  rw [KeepsNumber, Option.some.inj hnumber]
  congr 1
  omega

/-- A capture is hidden if it was before. -/
theorem Reorders.mem_hidden_hideAdded (h : Reorders count order) (l : CaptureLayout) (hk : 0 < k)
    (hk' : k ≤ count) :
    referenceNumber order (.existing k 0) ∈ (hideAdded order (carryOver order l)).hidden
      ↔ k ∈ l.hidden := by
  have hmem : CaptureKey.existing k 0 ∈ order := h.mem.2 ⟨hk, hk'⟩
  have hnumber := numberOf?_eq_referenceNumber hmem
  have hsame : ∀ key, numberOf? order key = some (referenceNumber order (.existing k 0)) →
      key = .existing k 0 := by
    intro key hkey
    have hplace := getElem?_of_numberOf? hkey
    rw [getElem?_of_numberOf? hnumber] at hplace
    exact (Option.some.inj hplace).symm
  rw [hideAdded, CaptureLayout.mem_hidden_foldl_hide, mem_added h.nodup, carryOver,
    CaptureLayout.mem_hidden_renumber]
  constructor
  · rintro (⟨key, hkey, hinjected⟩ | ⟨j, hj, hkey⟩)
    · rw [hsame key hkey] at hinjected
      cases hinjected
    · obtain ⟨rfl, -⟩ := CaptureKey.existing.inj (hsame _ hkey)
      exact hj
  · exact fun hk => .inr ⟨k, hk, hnumber⟩

/-! ## Unfolded patterns -/

/-- The number that a capture gets when the atomic groups of a pattern are unfolded. -/
def unfoldedNumber? (text : Text) (k : Nat) : Option Nat := do
  let tokens ← (scan text).toOption
  let pieces ← (atomicPieces text.length {} 0 tokens).toOption
  numberOf? (keys pieces) (.existing k 0)

/-- The pattern `d` is the pattern `text` with its atomic groups unfolded, and so are their trees. -/
structure UnfoldedPattern (g : Grammar) (text : Text) (l : CaptureLayout) (root : Node) (d : Draft)
    (root' : Node) (f : Renumbering) : Prop where
  unfold : unfoldAtomic ⟨text, l⟩ = .ok d
  read : Node.read? g false d.text = some root'
  tree : Unfolded f root root'
  count : root.captures.length = f.count
  total : root'.captures.length = f.total
  nodup : root'.numbers.Nodup
  number : ∀ k, f.IsOld k → unfoldedNumber? text k = some (f.new k)
  hidden : ∀ k, f.IsOld k → (f.new k ∈ d.layout.hidden ↔ k ∈ l.hidden)

/-- What the reduction returns. Without atomic groups it is the pattern as it was. -/
theorem exists_unfoldAtomic (hscan : scan text = .ok us)
    (hpieces : atomicPieces text.length {} 0 us = .ok pieces) (hof : PiecesOf g text ts {} pieces)
    (hrefers : ∀ k, 0 < k → .numbered k ∈ ts → k ≤ captureCount us) (l : CaptureLayout) :
    ∃ d, unfoldAtomic ⟨text, l⟩ = .ok d ∧ d.text = render (keys pieces) pieces ∧
      ∀ k, 0 < k → k ≤ captureCount us →
        (referenceNumber (keys pieces) (.existing k 0) ∈ d.layout.hidden ↔ k ∈ l.hidden) := by
  have hkeys : keys pieces = unfoldKeys 0 0 us := keys_atomicPieces hpieces
  have hr : Reorders (captureCount us) (keys pieces) := by
    rw [hkeys]
    exact reorders_unfoldKeys us
  by_cases hatomic : us.any (·.kind == .atomicOpen) = true
  · refine ⟨⟨render (keys pieces) pieces, hideAdded (keys pieces) (carryOver (keys pieces) l)⟩, ?_, rfl,
      fun k hk hk' => hr.mem_hidden_hideAdded l hk hk'⟩
    unfold unfoldAtomic
    rw [hscan]
    simp only [bind, Except.bind, hatomic, hpieces, pure, Except.pure, Bool.not_true,
      Bool.false_eq_true, if_false, hideAdded]
  · rw [Bool.not_eq_true] at hatomic
    have hnone : ∀ n, .injected n ∉ keys pieces := by
      intro n hn
      rw [hkeys, injected_mem_unfoldKeys, List.countP_eq_zero.2] at hn
      · omega
      · exact fun t ht => by simpa using List.any_eq_false.1 hatomic t ht
    have hall : ∀ key ∈ keys pieces, key.isKept := by
      intro key hkey
      have hinjected := isInjected_unfoldKeys key (hkeys ▸ hkey)
      cases key with
      | injected n => exact absurd hkey (hnone n)
      | existing i c => simpa [CaptureKey.isInjected] using hinjected
    have hkeeps : Mentioned (KeepsNumber (keys pieces)) ts [] (keys pieces) :=
      ⟨fun k hk hmem => hr.keepsNumber hall hk (hrefers k hk hmem), by simp,
        fun n hn => absurd hn (hnone n)⟩
    refine ⟨⟨text, l⟩, unfoldAtomic_of_no_atomic hscan hatomic, (hof.same _ hkeeps).symm, fun k hk hk' => ?_⟩
    rw [← (CaptureKey.existing.inj (hr.keepsNumber hall hk hk')).1]

theorem follows_start (f : Renumbering) (added : Nat → Nat) : Follows f added [] {} {} :=
  ⟨rfl, .base ⟨⟨.nil, .nil⟩, rfl, by simp, by simp⟩⟩

/-- **The host reads the unfolding of a pattern as the unfolded tree.** -/
theorem exists_unfoldedPattern (hg : g.isStrict) {root : Node} (hscan : scan text = .ok us)
    (hread : Node.read? g true text = some root) (l : CaptureLayout) :
    ∃ d root' f, UnfoldedPattern g text l root d root' f := by
  obtain ⟨x, ts, r, hx, hts, hr, hroot⟩ := exists_of_read? hg hread
  have hbalanced : closesAll 0 ts := Reading.closesAll_of_foldlM hr (Reading.of_finish hroot).2.1
  obtain ⟨pieces, hpieces, hof⟩ :=
    exists_unfolding (u := {}) hx hts (Reading.isChain_precedes hr) hscan text.length hbalanced 0
  have horder : Reorders (captureCount us) (keys pieces) := by
    rw [keys_atomicPieces hpieces]
    exact reorders_unfoldKeys us
  obtain ⟨ts', hunfolds, hlex⟩ := hof.reads (keys pieces)
  have hnames := hunfolds.sameNames horder
  have hcount : (captureNames ts).length = captureCount us := hnames.count
  -- Every reference has a capture to refer to, so it has a number.
  have hrefers : ∀ k, 0 < k → .numbered k ∈ ts → k ≤ captureCount us := by
    intro k _ hmem
    rw [← hcount]
    exact Reading.le_of_numbered_mem hr hmem
  have hnumbered : Mentioned (IsNumbered (keys pieces)) ts [] (keys pieces) :=
    ⟨fun k hk hmem => (referenceNumber_le (horder.mem.2 ⟨hk, hrefers k hk hmem⟩)).1, by simp,
      fun n hn => (referenceNumber_injected_le hn).1⟩
  obtain ⟨-, htokens⟩ := hlex hnumbered
  -- The trees are put together side by side.
  obtain ⟨r', hr', hfollows⟩ := hunfolds.exists_follows horder hnames (List.nil_append _).symm rfl rfl
    (follows_start _ _) hr
  obtain ⟨root', hroot', htree⟩ := hfollows.finish hroot
  obtain ⟨d, hd, htext, hhidden⟩ := exists_unfoldAtomic hscan hpieces hof hrefers l
  have hnumbers := numbers_of_finish hr hroot
  have hnumbers' := numbers_of_finish hr' hroot'
  refine ⟨d, root', horder.renumbering, hd, ?_, htree, ?_, ?_, ?_, ?_, fun k hk => hhidden k hk.1 hk.2⟩
  · rw [htext, read?_eq_finish hg htokens false hr', hroot']
  · rw [← hnames.count, ← root.length_numbers, hnumbers, List.length_range']
  · rw [← hnames.total, ← root'.length_numbers, hnumbers', List.length_range']
  · rw [hnumbers']
    exact List.nodup_range'
  · intro k hk
    rw [unfoldedNumber?, hscan]
    show (do let pieces ← (atomicPieces text.length {} 0 us).toOption; _) = _
    rw [hpieces]
    exact numberOf?_eq_referenceNumber (horder.mem.2 hk)

end Diglot.Reduction
