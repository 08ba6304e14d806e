import Diglot.Proofs.Expression.Enumeration
import Diglot.Proofs.Outcome

/-!
# All matches succeed one another

Looking for all matches is a loop around a loop. The outer one goes on behind each match, one
character further if the match is empty, and the inner one tries again one character behind each
start that a strategy does not accept. Both are given here as they run, without a bound (`Listing`,
`Retrial`). If the host only finds matches at or after the place where it is asked to search, both
loops end, and the matches that are listed lie one behind the other.
-/

namespace Diglot

open Host (Found Regex)

variable {cs : List Char} {i j p : Nat} {fs : List Found}

/-! ## Offsets -/

namespace Text

theorem offsetOf_lt (hij : i < j) (hj : j ≤ cs.length) : offsetOf cs i < offsetOf cs j := by
  induction cs generalizing i j with
  | nil => simp at hj; omega
  | cons c cs ih =>
    have hpos := Char.utf8Size_pos c
    cases j with
    | zero => omega
    | succ j =>
      cases i with
      | zero =>
        rw [offsetOf_zero, offsetOf_cons_succ]
        omega
      | succ i =>
        have hrest := ih (Nat.lt_of_succ_lt_succ hij) (Nat.le_of_succ_le_succ hj)
        rw [offsetOf_cons_succ, offsetOf_cons_succ]
        omega

theorem offsetOf_le (hij : i ≤ j) (hj : j ≤ cs.length) : offsetOf cs i ≤ offsetOf cs j := by
  rcases Nat.eq_or_lt_of_le hij with rfl | hlt
  · exact Nat.le_refl _
  · exact Nat.le_of_lt (offsetOf_lt hlt hj)

/-- The offset of the end is the size of the text. -/
theorem offsetOf_length (cs : List Char) :
    offsetOf cs cs.length = (String.ofList cs).utf8ByteSize := by
  induction cs with
  | nil => rfl
  | cons c cs ih =>
    rw [List.length_cons, offsetOf_cons_succ, ih, String.ofList_cons, String.utf8ByteSize_append,
      String.utf8ByteSize_singleton]

end Text

/-! ## Trying again -/

/-- A search for a match whose start is accepted. One that is not accepted is the last if there is
only a single try, or if no character comes after its start. -/
inductive Retrial (search : HostSearch) (accepts : Nat → Bool) (single : Bool) (size : Nat) :
    Nat → Option Found → Prop where
  | nothing {p : Nat} (h : search p = none) : Retrial search accepts single size p none
  | accepted {p : Nat} {f : Found} (h : search p = some f) (ha : accepts f.span.start = true) :
      Retrial search accepts single size p (some f)
  | last {p : Nat} {f : Found} (h : search p = some f) (ha : accepts f.span.start = false)
      (hlast : single = true ∨ size ≤ f.span.start) : Retrial search accepts single size p none
  | again {p : Nat} {f : Found} {r : Option Found} (h : search p = some f)
      (ha : accepts f.span.start = false) (hsingle : single = false) (hnext : f.span.start < size)
      (hrest : Retrial search accepts single size (f.span.start + 1) r) :
      Retrial search accepts single size p r

/-- Whether a match that starts at `p` counts under a plan in a search from `start`. -/
def Emulation.accepts (e : Emulation) (text : Array Char) (start p : Nat) : Bool :=
  e.strategy.all (·.accepts text start p)

section

variable {search : HostSearch} {size : Nat}

/-- Each try begins behind the one before, so they come to an end. -/
theorem retrial_firstAccepted (h : search.GoesForward size) (accepts : Nat → Bool) (hp : p ≤ size) :
    Retrial search accepts false size p (firstAccepted search accepts size p) := by
  fun_induction firstAccepted search accepts size p with
  | case1 p hnone => exact .nothing hnone
  | case2 p f hf ha => exact .accepted hf ha
  | case3 p f hf ha hbound ih =>
    exact .again hf (Bool.eq_false_iff.2 ha) rfl hbound.2 (ih hbound.2)
  | case4 p f hf ha hbound =>
    obtain ⟨hstart, -⟩ := h p f hp hf
    exact .last hf (Bool.eq_false_iff.2 ha) (.inr (by omega))

/-- **Under every plan the search for a match comes to an end.** -/
theorem Emulation.retrial_find (e : Emulation) {text : Array Char}
    (h : search.GoesForward text.size) {start : Nat} (hstart : start ≤ text.size) :
    Retrial search (e.accepts text start) (e.strategy == some .searchStart) text.size start
      (e.find text search start) := by
  unfold Emulation.find Emulation.accepts
  cases e.strategy with
  | none =>
    cases hf : search start with
    | none => exact .nothing hf
    | some f => exact .accepted hf rfl
  | some s =>
    cases s with
    | notSearchStart | lineOrSearchStart | stringOrSearchStart =>
      exact retrial_firstAccepted h _ hstart
    | searchStart =>
      show Retrial _ _ _ _ _ ((search start).filter (·.span.start == start))
      cases hf : search start with
      | none => exact .nothing hf
      | some f =>
        by_cases hs : f.span.start = start
        · rw [Option.filter_some, if_pos (beq_iff_eq.2 hs)]
          exact .accepted hf (decide_eq_true hs)
        · rw [Option.filter_some, if_neg (by simpa using hs)]
          exact .last hf (decide_eq_false hs) (.inl rfl)

/-! ## Going on -/

/-- A run through the matches from a position on: behind a match it goes on where the match lets it,
until nothing is found or the text is over. -/
inductive Listing (find : HostSearch) (size : Nat) : Nat → List Found → Prop where
  | past {p : Nat} (h : size < p) : Listing find size p []
  | nothing {p : Nat} (hp : p ≤ size) (h : find p = none) : Listing find size p []
  | found {p : Nat} {f : Found} {fs : List Found} (hp : p ≤ size) (h : find p = some f)
      (hrest : Listing find size f.resume fs) : Listing find size p (f :: fs)

theorem Host.Found.resume_of_le {f : Found} (h : f.span.start ≤ f.span.stop) :
    f.span.start < f.resume ∧ f.span.stop ≤ f.resume ∧ f.resume ≤ f.span.stop + 1 ∧
      (f.span.start = f.span.stop → f.span.stop < f.resume) := by
  unfold Found.resume
  split <;> omega

variable {find : HostSearch}

/-- Each match lets the run go on behind the place where it was looked for, so the run ends. -/
theorem listing_allFrom (h : find.GoesForward size) (hp : p ≤ size) :
    Listing find size p (allFrom find size p) := by
  fun_induction allFrom find size p with
  | case1 p hnone => exact .nothing hp hnone
  | case2 p f hf hbound ih => exact .found hp hf (ih hbound.2)
  | case3 p f hf hbound =>
    obtain ⟨hstart, hspan, -⟩ := h p f hp hf
    have hresume := Found.resume_of_le hspan
    exact .found hp hf (.past (by omega))

/-- What is listed from a position on. -/
structure Listed (size p : Nat) (fs : List Found) : Prop where
  inside : ∀ f ∈ fs, p ≤ f.span.start ∧ f.span.start ≤ f.span.stop ∧ f.span.stop ≤ size
  ordered : fs.Pairwise fun f g => f.resume ≤ g.span.start
  count : fs.length ≤ size + 1 - p

/-- **A run lists matches that lie one behind the other.** The induction is along the run. -/
theorem Listing.listed (hf : find.GoesForward size) (h : Listing find size p fs) :
    Listed size p fs := by
  induction h with
  | past | nothing => exact ⟨List.forall_mem_nil _, .nil, Nat.zero_le _⟩
  | @found p f fs hp hfind _ ih =>
    obtain ⟨hstart, hspan, hstop⟩ := hf p f hp hfind
    obtain ⟨hforward, -, -, -⟩ := Found.resume_of_le hspan
    refine ⟨List.forall_mem_cons.2 ⟨⟨hstart, hspan, hstop⟩, fun g hg => ?_⟩,
      List.pairwise_cons.2 ⟨fun g hg => (ih.inside g hg).1, ih.ordered⟩, ?_⟩
    · obtain ⟨hg, hrest⟩ := ih.inside g hg
      exact ⟨by omega, hrest⟩
    · have hcount := ih.count
      rw [List.length_cons]
      omega

end

/-! ## Matches with offsets -/

/-- Matches of a text that lie one behind the other. -/
structure Succession (text : String) (ms : List Captures) : Prop where
  starts : ms.Pairwise fun m n => m.start < n.start
  /-- No match begins before the end of the one before it, or at its end if that one is empty. -/
  disjoint : ms.Pairwise fun m n => m.stop ≤ n.start ∧ (m.start = m.stop → m.stop < n.start)
  inside : ∀ m ∈ ms, m.start ≤ m.stop ∧ m.stop ≤ text.utf8ByteSize
  count : ms.length ≤ text.length + 1

namespace Expression

/-- Matches that are listed from the front of a text, as they are reported. -/
theorem succession_of_listed (x : Expression) {text : String} (h : Listed text.toList.length 0 fs) :
    Succession text (fs.map (x.captures (Text.offsetOf text.toList))) := by
  have hordered : ∀ f ∈ fs, ∀ g ∈ fs, f.resume ≤ g.span.start →
      Text.offsetOf text.toList f.span.start < Text.offsetOf text.toList g.span.start ∧
      Text.offsetOf text.toList f.span.stop ≤ Text.offsetOf text.toList g.span.start ∧
      (Text.offsetOf text.toList f.span.start = Text.offsetOf text.toList f.span.stop →
        Text.offsetOf text.toList f.span.stop < Text.offsetOf text.toList g.span.start) := by
    intro f hf g hg hresume
    obtain ⟨-, hfspan, -⟩ := h.inside f hf
    obtain ⟨-, hgspan, hgstop⟩ := h.inside g hg
    obtain ⟨hstart, hstop, -, hempty⟩ := Found.resume_of_le hfspan
    have hsize : g.span.start ≤ text.toList.length := by omega
    refine ⟨Text.offsetOf_lt (by omega) hsize, Text.offsetOf_le (by omega) hsize, fun heq => ?_⟩
    -- offsets are equal where positions are
    have hsame : f.span.start = f.span.stop := by
      by_contra hne
      have hlt := Nat.lt_of_le_of_ne hfspan hne
      exact Nat.ne_of_lt (Text.offsetOf_lt hlt (by omega)) heq
    exact Text.offsetOf_lt (Nat.lt_of_lt_of_le (hempty hsame) hresume) hsize
  have hpairs := h.ordered.imp_of_mem fun hf hg => hordered _ hf _ hg
  refine ⟨List.pairwise_map.2 (hpairs.imp fun hfg => hfg.1),
    List.pairwise_map.2 (hpairs.imp fun hfg => hfg.2), ?_, ?_⟩
  · intro m hm
    obtain ⟨f, hf, rfl⟩ := List.mem_map.1 hm
    obtain ⟨-, hspan, hstop⟩ := h.inside f hf
    have hsize := Text.offsetOf_length text.toList
    rw [String.ofList_toList] at hsize
    refine ⟨Text.offsetOf_le hspan hstop, ?_⟩
    rw [← hsize]
    exact Text.offsetOf_le hstop (Nat.le_refl _)
  · have hcount := h.count
    rw [String.length_toList] at hcount
    rw [List.length_map]
    exact hcount

/-- **All matches succeed one another.** Let the host find only what lies between the place where it
is asked to search and the end of the text. Then, under every plan, the search for a match ends
wherever it starts, and so does the run through all matches; they lie one behind the other. With the
compiled pattern for the host, they are what `findAll` gives. -/
theorem findAll_succession (x : Expression) (text : String) {search : HostSearch}
    (h : search.GoesForward text.toList.length) :
    (∀ start ≤ text.toList.length,
      Retrial search (x.plan.accepts text.toList.toArray start)
        (x.plan.strategy == some .searchStart) text.toList.length start
        (x.plan.find text.toList.toArray search start)) ∧
    ∃ fs, Listing (x.plan.find text.toList.toArray search) text.toList.length 0 fs ∧
      Succession text (fs.map (x.captures (Text.offsetOf text.toList))) ∧
      ∀ r, x.prepare.2 = .ok r → r.search text.toList.toArray = search →
        (x.findAll text).2 = .ok (fs.map (x.captures (Text.offsetOf text.toList))) := by
  have hforward : HostSearch.GoesForward (x.plan.find text.toList.toArray search)
      text.toList.length := x.plan.goesForward_find h
  have hrun := listing_allFrom hforward (Nat.zero_le _)
  refine ⟨fun start hstart => x.plan.retrial_find h hstart, _, hrun,
    x.succession_of_listed (hrun.listed hforward), ?_⟩
  rintro r hr rfl
  rw [findAll_eq hr]
  rfl

/-- A plan rejects what is found where a search starts, so that each search is tried again one
character further on. Behind the empty match a letter of two bytes is stepped over. -/
theorem findAll_succession_retried : ∃ x ms,
    emulated "a*" "u" { strategy := some .notSearchStart } = .ok x ∧
    (x.findAll "bäaa").2 = .ok ms ∧ ms.map (fun m => (m.start, m.stop)) = [(1, 1), (4, 5)] ∧
    Succession "bäaa" ms := by
  obtain ⟨x, hx, r, hr, ms, hms, hspans⟩ : ∃ x,
      emulated "a*" "u" { strategy := some .notSearchStart } = .ok x ∧
      ∃ r, x.prepare.2 = .ok r ∧ ∃ ms, (x.findAll "bäaa").2 = .ok ms ∧
        ms.map (fun m => (m.start, m.stop)) = [(1, 1), (4, 5)] := by
    decide +kernel
  obtain ⟨-, fs, -, hsuccession, hfound⟩ :=
    findAll_succession x "bäaa" (goesForward_search r "bäaa".toList.toArray)
  cases hms.symm.trans (hfound r hr rfl)
  exact ⟨x, _, hx, hms, hspans, hsuccession⟩

end Expression

end Diglot
