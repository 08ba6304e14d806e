import Diglot.Proofs.Emitted.Chunk
import Diglot.Proofs.Host.Balanced
import Diglot.Proofs.Reduction.Unfolded

/-!
# Unfolded patterns as the host reads them

Atomic groups are unfolded in the text of a pattern, on the tokens of the scanner. This module says
what it amounts to for the tokens of the host (`UnfoldsTo`): an atomic group becomes a group, a look
ahead and a capture, a reference follows where it closes, and the references of the pattern get new
numbers. The main statement is `exists_unfolding`: the unfolding of a pattern that the host reads
with atomic groups succeeds, and its text is read as the unfolded tokens.
-/

namespace Diglot.Reduction

open Emitted Host Text

variable {n size i : Nat} {stack : List (Option Nat)} {front ts later : List Host.Token}
  {u : Unfolding} {vs : List Emitted.Token} {o : Opener} {g : Grammar} {w rest : List Char}
  {pieces : List Piece}

/-! ## Unfolded tokens -/

/-- The tokens `ts` with their atomic groups unfolded are `ts'`. Before them `c` captures were opened
and `n` were added, and the groups that are open are in `stack`. They open the captures `ks`. -/
inductive UnfoldsTo (order : List CaptureKey) : (c n : Nat) → (stack : List (Option Nat)) →
    (ts ts' : List Host.Token) → (ks : List CaptureKey) → Prop where
  | nil {c n : Nat} : UnfoldsTo order c n [] [] [] []
  | ordinary {c n : Nat} {stack : List (Option Nat)} {t : Host.Token} {ts ts' : List Host.Token}
    {ks : List CaptureKey} (ht : t.isOrdinary) (h : UnfoldsTo order c n stack ts ts' ks) :
    UnfoldsTo order c n stack (t :: ts) (t :: ts') ks
  | opens {c n : Nat} {stack : List (Option Nat)} {o : Opener} {ts ts' : List Host.Token}
    {ks : List CaptureKey} (ha : o ≠ .atomic) (hc : ∀ name, o ≠ .capture name)
    (h : UnfoldsTo order c n (none :: stack) ts ts' ks) :
    UnfoldsTo order c n stack (.groupOpen o :: ts) (.groupOpen o :: ts') ks
  | captures {c n : Nat} {stack : List (Option Nat)} {name : Option (List Char)}
    {ts ts' : List Host.Token} {ks : List CaptureKey}
    (h : UnfoldsTo order (c + 1) n (none :: stack) ts ts' ks) :
    UnfoldsTo order c n stack (.groupOpen (.capture name) :: ts) (.groupOpen (.capture name) :: ts')
      (.existing (c + 1) 0 :: ks)
  | atomic {c n : Nat} {stack : List (Option Nat)} {ts ts' : List Host.Token} {ks : List CaptureKey}
    (h : UnfoldsTo order c (n + 1) (some n :: stack) ts ts' ks) :
    UnfoldsTo order c n stack (.groupOpen .atomic :: ts)
      (.groupOpen .plain :: .groupOpen (.look ⟨false, false⟩) :: .groupOpen (.capture none) :: ts')
      (.injected n :: ks)
  | closes {c n : Nat} {stack : List (Option Nat)} {ts ts' : List Host.Token} {ks : List CaptureKey}
    (h : UnfoldsTo order c n stack ts ts' ks) :
    UnfoldsTo order c n (none :: stack) (.groupClose :: ts) (.groupClose :: ts') ks
  | closesAtomic {c n i : Nat} {stack : List (Option Nat)} {ts ts' : List Host.Token}
    {ks : List CaptureKey} (h : UnfoldsTo order c n stack ts ts' ks) :
    UnfoldsTo order c n (some i :: stack) (.groupClose :: ts)
      (.groupClose :: .groupClose :: .numbered (referenceNumber order (.injected i)) ::
        .groupClose :: ts') ks
  | refers {c n k : Nat} {stack : List (Option Nat)} {ts ts' : List Host.Token}
    {ks : List CaptureKey} (hk : 0 < k) (h : UnfoldsTo order c n stack ts ts' ks) :
    UnfoldsTo order c n stack (.numbered k :: ts)
      (.numbered (referenceNumber order (.existing k 0)) :: ts') ks

theorem UnfoldsTo.ordinaries {order : List CaptureKey} {c : Nat} {ts' : List Host.Token}
    {ks : List CaptureKey} (hf : ∀ t ∈ front, t.isOrdinary)
    (h : UnfoldsTo order c n stack ts ts' ks) :
    UnfoldsTo order c n stack (front ++ ts) (front ++ ts') ks := by
  induction front with
  | nil => exact h
  | cons t front ih =>
    obtain ⟨ht, hf⟩ := List.forall_mem_cons.1 hf
    exact .ordinary ht (ih hf)

/-! ## Pieces of ordinary tokens -/

/-- Ordinary tokens are taken over as they are. -/
theorem atomicPieces_ordinary {later : List Emitted.Token} {pieces : List Piece}
    (hvs : ∀ v ∈ vs, v.kind.isOrdinary) (h : atomicPieces size u (i + vs.length) later = .ok pieces)
    :
    atomicPieces size u i (vs ++ later) = .ok (vs.map (fun v => .text v.text) ++ pieces) := by
  induction vs generalizing i with
  | nil => exact h
  | cons v vs ih =>
    obtain ⟨hv, hvs⟩ := List.forall_mem_cons.1 hvs
    rw [List.length_cons, Nat.add_comm vs.length, ← Nat.add_assoc] at h
    have hlater := ih hvs h
    rw [List.cons_append, atomicPieces]
    cases hk : v.kind with
    | alternation | quantifier | assertion | atom =>
      dsimp only
      rw [hlater]
      rfl
    | _ =>
      rw [hk] at hv
      cases hv

theorem keys_texts (vs : List Emitted.Token) (pieces : List Piece) :
    keys (vs.map (fun v => .text v.text) ++ pieces) = keys pieces := by
  induction vs with
  | nil => rfl
  | cons v vs ih => exact ih

theorem render_texts (order : List CaptureKey) (vs : List Emitted.Token) (pieces : List Piece) :
    render order (vs.map (fun v => .text v.text) ++ pieces) = textOf vs ++ render order pieces := by
  induction vs with
  | nil => rfl
  | cons v vs ih =>
    rw [List.map_cons, List.cons_append, render, ih, textOf_cons, List.append_assoc]

/-! ## Texts of unfolded tokens -/

section

variable {x : Dialect} (hx : x.Suits g)

include hx

/-- What stands where an atomic group opens. -/
theorem lexesBefore_openAtomic (hr : rest.head? ≠ some '?') : LexesBefore x 0 0 "(?:(?=(".toList
    [.groupOpen .plain, .groupOpen (.look ⟨false, false⟩), .groupOpen (.capture none)] rest := by
  have hplain : LexesBefore x 0 0 "(?:".toList [.groupOpen .plain] ("(?=(".toList ++ rest) :=
    (PlainForm.opener .plain).lexesBefore hx
  have hahead : LexesBefore x 0 0 "(?=".toList [.groupOpen (.look ⟨false, false⟩)] ('(' :: rest) :=
    (PlainForm.opener (.look (by decide))).lexesBefore hx
  have hcapture : LexesBefore x 0 0 ['('] [.groupOpen (.capture none)] rest :=
    (PlainForm.opener (.capture hr)).lexesBefore hx
  exact hplain.append (hahead.append hcapture)

theorem lexesBefore_close : LexesBefore x 0 0 [')'] [.groupClose] rest :=
  (PlainForm.mark (by decide)).lexesBefore hx

theorem lexesBefore_reference (hi : 0 < i) (hr : rest.head?.any (isDigit 10) = false) :
    LexesBefore x 0 0 (referenceText i) [.numbered i] rest := by
  have hds : ∀ c ∈ Nat.toDigits 10 i, isDigit 10 c := fun c hc => by
    rw [isDigit_ten]
    exact isDigit_of_mem_decimal hc
  have hz : (Nat.toDigits 10 i).head?.any (· != '0') := by
    obtain ⟨c, cs, hcons, -⟩ := exists_toDigits_eq_cons i
    have hne := toDigits_head_ne_zero hi
    rw [hcons] at hne ⊢
    simpa using hne
  have hlexes : LexesBefore x 0 0 ('\\' :: Nat.toDigits 10 i) _ rest :=
    (PlainForm.numbered hz hds hr).lexesBefore hx
  rw [ofDigits_toDigits] at hlexes
  rwa [referenceText_eq]

/-- What stands where an atomic group closes. -/
theorem lexesBefore_closeAtomic (hi : 0 < i) :
    LexesBefore x 0 0 ("))".toList ++ (referenceText i ++ [')']))
      [.groupClose, .groupClose, .numbered i, .groupClose] rest := by
  have hlast : LexesBefore x 0 0 [')'] [.groupClose] rest := lexesBefore_close hx
  have hreference : LexesBefore x 0 0 (referenceText i) [.numbered i] ([')'] ++ rest) :=
    lexesBefore_reference hx hi rfl
  have hsecond : LexesBefore x 0 0 [')'] [.groupClose] (referenceText i ++ [')'] ++ rest) :=
    lexesBefore_close hx
  have hfirst : LexesBefore x 0 0 [')'] [.groupClose] ([')'] ++ (referenceText i ++ [')']) ++ rest) :=
    lexesBefore_close hx
  exact hfirst.append (hsecond.append (hreference.append hlast))

end

/-! ## Pieces of a pattern -/

/-- All captures have the property that the tokens refer to, that groups in `stack` will refer to or
that are added among `ks`. -/
structure Mentioned (P : CaptureKey → Prop) (ts : List Host.Token) (stack : List (Option Nat))
    (ks : List CaptureKey) : Prop where
  refers : ∀ k, 0 < k → .numbered k ∈ ts → P (.existing k 0)
  pending : ∀ n, some n ∈ stack → P (.injected n)
  added : ∀ n, .injected n ∈ ks → P (.injected n)

namespace Mentioned

variable {P : CaptureKey → Prop} {ks : List CaptureKey}

theorem append (h : Mentioned P (front ++ ts) stack ks) : Mentioned P ts stack ks :=
  { h with refers := fun k hk hmem => h.refers k hk (List.mem_append_right _ hmem) }

theorem tail {t : Host.Token} (h : Mentioned P (t :: ts) stack ks) : Mentioned P ts stack ks :=
  { h with refers := fun k hk hmem => h.refers k hk (List.mem_cons_of_mem _ hmem) }

theorem opens (h : Mentioned P (.groupOpen o :: ts) stack ks) : Mentioned P ts (none :: stack) ks :=
  { h.tail with pending := fun n hn => h.pending n (by simpa using hn) }

theorem captures {key : CaptureKey} (h : Mentioned P (.groupOpen o :: ts) stack (key :: ks)) :
    Mentioned P ts (none :: stack) ks :=
  { h.opens with added := fun n hn => h.added n (List.mem_cons_of_mem _ hn) }

theorem atomic (h : Mentioned P (.groupOpen .atomic :: ts) stack (.injected n :: ks)) :
    Mentioned P ts (some n :: stack) ks where
  refers := h.tail.refers
  pending m hm := by
    rcases List.mem_cons.1 hm with hm | hm
    · cases hm
      exact h.added _ List.mem_cons_self
    · exact h.pending m hm
  added m hm := h.added m (List.mem_cons_of_mem _ hm)

theorem closes {top : Option Nat} (h : Mentioned P (.groupClose :: ts) (top :: stack) ks) :
    Mentioned P ts stack ks :=
  { h.tail with pending := fun n hn => h.pending n (List.mem_cons_of_mem _ hn) }

end Mentioned

/-- A capture that has a number. -/
def IsNumbered (order : List CaptureKey) (key : CaptureKey) : Prop :=
  0 < referenceNumber order key

/-- A capture that keeps its number. -/
def KeepsNumber (order : List CaptureKey) (key : CaptureKey) : Prop :=
  key = .existing (referenceNumber order key) 0

/-- The pieces are what becomes of a text that is read as `ts`: rendered they are read as the
unfolded tokens. -/
structure PiecesOf (g : Grammar) (text : List Char) (ts : List Host.Token) (u : Unfolding)
    (pieces : List Piece) : Prop where
  start : pieces.head?.any (·.startsWithDigit) → text.head?.any Char.isDigit
  /-- Where no number changes, the text stays as it is. -/
  same : ∀ order, Mentioned (KeepsNumber order) ts u.stack (keys pieces) →
    render order pieces = text
  reads : ∀ order, ∃ ts', UnfoldsTo order u.captures u.injected u.stack ts ts' (keys pieces) ∧
    (Mentioned (IsNumbered order) ts u.stack (keys pieces) → SameStart text (render order pieces) ∧
      ∀ x : Dialect, x.Suits g → tokensFrom? x 0 (render order pieces) = some ts')

theorem PiecesOf.nil (hs : u.stack = []) : PiecesOf g [] [] u [] where
  start hd := by cases hd
  same order h := rfl
  reads order := by
    rw [hs]
    exact ⟨[], .nil, fun _ => ⟨.refl [], fun x _ => tokensFrom?_nil x 0⟩⟩

theorem PiecesOf.ordinary (h : PiecesOf g rest later u pieces) (hts : ∀ t ∈ front, t.isOrdinary)
    (hw : textOf vs = w) (hne : w ≠ []) (hstart : ∀ a b, SameStart (w ++ a) (w ++ b))
    (hlex : Relexes g w rest front) :
    PiecesOf g (w ++ rest) (front ++ later) u (vs.map (fun v => .text v.text) ++ pieces) where
  start hd := by
    cases vs with
    | nil => exact absurd hw.symm hne
    | cons v vs =>
      replace hd : v.text.head?.any Char.isDigit := hd
      cases hv : v.text with
      | nil =>
        rw [hv] at hd
        cases hd
      | cons c cs =>
        rw [hv] at hd
        rw [← hw, textOf_cons, hv]
        exact hd
  same order hk := by
    rw [keys_texts] at hk
    rw [render_texts, hw, h.same order hk.append]
  reads order := by
    obtain ⟨ts', hunfolds, hreads⟩ := h.reads order
    rw [keys_texts, render_texts, hw]
    refine ⟨front ++ ts', hunfolds.ordinaries hts, fun hn => ?_⟩
    obtain ⟨hsame, htokens⟩ := hreads hn.append
    exact ⟨hstart _ _, fun x hx => (hlex x hx _ hsame).tokensFrom?_eq (htokens x hx)⟩

theorem PiecesOf.opens {o : Opener} {v : Emitted.Token} (ha : o ≠ .atomic)
    (hc : ∀ name, o ≠ .capture name) (hv : v.text.head? = some '(')
    (hlex : Relexes g v.text rest [.groupOpen o])
    (h : PiecesOf g rest later { u with stack := none :: u.stack } pieces) :
    PiecesOf g (v.text ++ rest) (.groupOpen o :: later) u (.text v.text :: pieces) where
  start hd := by
    replace hd : v.text.head?.any Char.isDigit := hd
    rw [hv] at hd
    cases hd
  same order hk := by
    have hrest := h.same order hk.opens
    rw [render, hrest]
  reads order := by
    obtain ⟨ts', hunfolds, hreads⟩ := h.reads order
    refine ⟨.groupOpen o :: ts', .opens ha hc hunfolds, fun hn => ?_⟩
    obtain ⟨hsame, htokens⟩ := hreads hn.opens
    constructor
    · obtain ⟨tail, htail⟩ := List.head?_eq_some_iff.1 hv
      rw [render, htail]
      exact sameStart_cons (by decide) _ _
    · exact fun x hx => (hlex x hx _ hsame).tokensFrom?_eq (htokens x hx)

theorem render_openCapture (order : List CaptureKey) (key : CaptureKey) (title : Option (List Char))
    (pieces : List Piece) :
    render order (.openCapture key title :: pieces) = openerText title ++ render order pieces := by
  cases title with
  | none => rfl
  | some name => simp [render, openerText]

theorem PiecesOf.captures {name title : Option (List Char)}
    (hlex : Relexes g (openerText title) rest [.groupOpen (.capture name)])
    (h : PiecesOf g rest later
      { u with captures := u.captures + 1, stack := none :: u.stack } pieces) :
    PiecesOf g (openerText title ++ rest) (.groupOpen (.capture name) :: later) u
      (.openCapture (.existing (u.captures + 1) 0) title :: pieces) where
  start hd := by cases hd
  same order hk := by
    have hrest := h.same order hk.captures
    rw [render_openCapture, hrest]
  reads order := by
    obtain ⟨ts', hunfolds, hreads⟩ := h.reads order
    rw [render_openCapture]
    refine ⟨.groupOpen (.capture name) :: ts', .captures hunfolds, fun hn => ?_⟩
    obtain ⟨hsame, htokens⟩ := hreads hn.captures
    constructor
    · cases title <;> exact sameStart_cons (by decide) _ _
    · exact fun x hx => (hlex x hx _ hsame).tokensFrom?_eq (htokens x hx)

theorem PiecesOf.atomic (hrest : rest.head? ≠ some '?') (h : PiecesOf g rest later u.insideAtomic pieces) :
    PiecesOf g ("(?>".toList ++ rest) (.groupOpen .atomic :: later) u
      (.text "(?:(?=".toList :: .openCapture (.injected u.injected) none :: pieces) where
  start hd := by cases hd
  same order hk := by cases hk.added u.injected List.mem_cons_self
  reads order := by
    obtain ⟨ts', hunfolds, hreads⟩ := h.reads order
    refine ⟨_, .atomic hunfolds, fun hn => ?_⟩
    obtain ⟨hsame, htokens⟩ := hreads hn.atomic
    refine ⟨sameStart_cons (by decide) _ _, fun x hx => ?_⟩
    have hhead : (render order pieces).head? ≠ some '?' := hsame.head ▸ hrest
    exact (lexesBefore_openAtomic hx hhead).tokensFrom?_eq (htokens x hx)

theorem PiecesOf.closes (hs : u.stack = none :: stack)
    (h : PiecesOf g rest later { u with stack } pieces) :
    PiecesOf g (')' :: rest) (.groupClose :: later) u (.text [')'] :: pieces) where
  start hd := by cases hd
  same order hk := by
    rw [hs] at hk
    have hrest := h.same order hk.closes
    rw [render, hrest]
    rfl
  reads order := by
    rw [hs]
    obtain ⟨ts', hunfolds, hreads⟩ := h.reads order
    refine ⟨_, .closes hunfolds, fun hn => ?_⟩
    obtain ⟨-, htokens⟩ := hreads hn.closes
    exact ⟨sameStart_cons (by decide) _ _,
      fun x hx => (lexesBefore_close hx).tokensFrom?_eq (htokens x hx)⟩

theorem PiecesOf.closesAtomic (hs : u.stack = some i :: stack)
    (h : PiecesOf g rest later { u with stack } pieces) :
    PiecesOf g (')' :: rest) (.groupClose :: later) u
      (.text "))".toList :: .backreference (.injected i) :: .text [')'] :: pieces) where
  start hd := by cases hd
  same order hk := by
    rw [hs] at hk
    cases hk.pending i List.mem_cons_self
  reads order := by
    rw [hs]
    obtain ⟨ts', hunfolds, hreads⟩ := h.reads order
    refine ⟨_, .closesAtomic hunfolds, fun hn => ?_⟩
    obtain ⟨-, htokens⟩ := hreads hn.closes
    refine ⟨sameStart_cons (by decide) _ _, fun x hx => ?_⟩
    have hi := hn.pending i List.mem_cons_self
    have hall := (lexesBefore_closeAtomic hx hi).tokensFrom?_eq (htokens x hx)
    simpa [render, Piece.startsWithDigit, referenceText] using hall

theorem sameStart_referenceText (i j : Nat) (a b : List Char) :
    SameStart (referenceText i ++ a) (referenceText j ++ b) := by
  have hdigit : ∀ k, ∃ d ds, Nat.toDigits 10 k = d :: ds ∧ d ≠ 'u' := by
    intro k
    obtain ⟨d, ds, hcons, hd⟩ := exists_toDigits_eq_cons k
    rw [← isDigit_ten] at hd
    exact ⟨d, ds, hcons, ne_of_isDigit hd (by decide)⟩
  obtain ⟨d, ds, hd, hdu⟩ := hdigit i
  obtain ⟨e, es, he, heu⟩ := hdigit j
  rw [referenceText_eq, referenceText_eq, hd, he]
  exact sameStart_escape hdu heu _ _

theorem PiecesOf.refers {k : Nat} (hk : 0 < k) (hrest : rest.head?.any (isDigit 10) = false)
    (h : PiecesOf g rest later u pieces) :
    PiecesOf g (referenceText k ++ rest) (.numbered k :: later) u
      (.backreference (.existing k 0) :: pieces) := by
  -- No digit comes after the reference, so nothing has to keep one apart from it.
  have hapart : pieces.head?.any (·.startsWithDigit) = false := by
    rw [← Bool.not_eq_true]
    intro hd
    have hdigit := h.start hd
    rw [← funext isDigit_ten, hrest] at hdigit
    cases hdigit
  have hrender : ∀ order, render order (.backreference (.existing k 0) :: pieces)
      = referenceText (referenceNumber order (.existing k 0)) ++ render order pieces := by
    intro order
    rw [render, hapart]
    simp [referenceText]
  refine ⟨(by simp [Piece.startsWithDigit]), fun order hkeeps => ?_, fun order => ?_⟩
  · have hnumber := hkeeps.refers k hk List.mem_cons_self
    rw [hrender, ← (CaptureKey.existing.inj hnumber).1, h.same order hkeeps.tail]
  · obtain ⟨ts', hunfolds, hreads⟩ := h.reads order
    refine ⟨_, .refers hk hunfolds, fun hn => ?_⟩
    obtain ⟨hsame, htokens⟩ := hreads hn.tail
    rw [hrender]
    refine ⟨sameStart_referenceText _ _ _ _, fun x hx => ?_⟩
    have hnumber := hn.refers k hk List.mem_cons_self
    have hrest' : (render order pieces).head?.any (isDigit 10) = false := hsame.head ▸ hrest
    exact (lexesBefore_reference hx hnumber hrest').tokensFrom?_eq (htokens x hx)

/-- One chunk more: if what follows it can be unfolded, so can the whole. -/
theorem exists_pieces_of_chunk {w rest : List Char} {later : List Host.Token}
    {later' : List Emitted.Token} (hchunk : Chunk g w rest front vs) (hne : w ≠ [])
    (hbalanced : closesAll u.stack.length (front ++ later))
    (hrest : ∀ u' : Unfolding, closesAll u'.stack.length later → ∀ i, ∃ pieces, atomicPieces size u' i later' = .ok pieces ∧ PiecesOf g rest later u' pieces)
    (i : Nat) :
    ∃ pieces, atomicPieces size u i (vs ++ later') = .ok pieces ∧
      PiecesOf g (w ++ rest) (front ++ later) u pieces := by
  cases hchunk with
  | ordinary hts hus hw hstart hlex =>
    rw [closesAll_ordinary hts] at hbalanced
    obtain ⟨pieces, hpieces, hof⟩ := hrest u hbalanced (i + vs.length)
    exact ⟨_, atomicPieces_ordinary hus hpieces, hof.ordinary hts hw hne hstart hlex⟩
  | @opens _ o v ha hc hu hstart hlex =>
    obtain ⟨pieces, hpieces, hof⟩ := hrest { u with stack := none :: u.stack } hbalanced (i + 1)
    refine ⟨.text v.text :: pieces, ?_, .opens ha hc hstart hlex hof⟩
    rw [List.singleton_append, atomicPieces]
    rcases hu with hu | hu <;> rw [hu] <;> dsimp only <;> rw [hpieces] <;> rfl
  | @captures _ name title _ hlex =>
    obtain ⟨pieces, hpieces, hof⟩ := hrest
      { u with captures := u.captures + 1, stack := none :: u.stack } hbalanced (i + 1)
    refine ⟨_, ?_, .captures hlex hof⟩
    rw [List.singleton_append, atomicPieces]
    dsimp only [captureToken]
    rw [hpieces]
    rfl
  | atomic hr =>
    obtain ⟨pieces, hpieces, hof⟩ := hrest u.insideAtomic hbalanced (i + 1)
    refine ⟨_, ?_, .atomic hr hof⟩
    rw [List.singleton_append, atomicPieces]
    show (do let rest ← atomicPieces size u.insideAtomic (i + 1) later'; _) = _
    rw [hpieces]
    rfl
  | closes =>
    cases hs : u.stack with
    | nil =>
      rw [hs] at hbalanced
      cases hbalanced
    | cons top stack =>
      rw [hs] at hbalanced
      obtain ⟨pieces, hpieces, hof⟩ := hrest { u with stack } hbalanced (i + 1)
      cases top with
      | none =>
        refine ⟨_, ?_, .closes hs hof⟩
        rw [List.singleton_append, atomicPieces, hs]
        dsimp only
        rw [hpieces]
        rfl
      | some n =>
        refine ⟨_, ?_, .closesAtomic hs hof⟩
        rw [List.singleton_append, atomicPieces, hs]
        dsimp only
        rw [hpieces]
        rfl
  | refers hk hr =>
    obtain ⟨pieces, hpieces, hof⟩ := hrest u hbalanced (i + 1)
    refine ⟨_, ?_, hof.refers hk hr⟩
    rw [List.singleton_append, atomicPieces]
    dsimp only [referenceToken]
    rw [hpieces]
    rfl

/-- **The atomic groups of a pattern that the host reads with them can be unfolded.** -/
theorem exists_unfolding {x : Dialect} (hx : x.Suits g) {text : List Char}
    (hts : tokensFrom? x 0 text = some ts) (hchain : ts.IsChain Host.Token.Precedes)
    {position : Nat} {us : List Emitted.Token} (hus : scanFrom position text = .ok us) (size : Nat)
    (hbalanced : closesAll u.stack.length ts) (i : Nat) :
    ∃ pieces, atomicPieces size u i us = .ok pieces ∧ PiecesOf g text ts u pieces := by
  induction hlength : text.length using Nat.strongRecOn generalizing text ts position us u i with
  | ind length ih =>
    by_cases hne : text = []
    · subst hne
      rw [tokensFrom?_nil] at hts
      rw [scanFrom] at hus
      cases hts
      cases hus
      have hs : u.stack = [] := by simpa [closesAll] using hbalanced
      exact ⟨[], by simp [atomicPieces, hs], .nil hs⟩
    · obtain ⟨w, rest, front, later, vs, later', position', rfl, hw, rfl, rfl, hchunk, hlater, hlater'⟩ :=
        exists_chunk hx hne hts hchain hus
      have hshort : rest.length < length := by
        have hpos := List.length_pos_iff.2 hw
        rw [← hlength, List.length_append]
        omega
      refine exists_pieces_of_chunk hchunk hw hbalanced (fun u' hu' i' => ?_) i
      exact ih _ hshort hlater (List.isChain_append.1 hchain).2.1 hlater' hu' i' rfl

end Diglot.Reduction
