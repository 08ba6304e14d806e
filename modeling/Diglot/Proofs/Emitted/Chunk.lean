import Diglot.Proofs.Emitted.ClassEnd
import Diglot.Proofs.Emitted.Legible

/-!
# Stretches of a pattern that are read twice

A written pattern is divided into tokens by the scanner, whose tokens the reductions work on, and by
the host. They do not divide alike: a class is one token to the scanner and many to the host, and
the two escapes of a surrogate pair are one token to the host and two to the scanner. A chunk is a
stretch at both ends of which both begin a token. A pattern that both can read is a sequence of
chunks (`exists_chunk`).
-/

namespace Diglot.Emitted

open Host Text

variable {c : Char} {rest ds w text : List Char} {n position : Nat} {g : Grammar} {extended : Bool}
  {t : Host.Token} {us : List Token}

/-! ## Chunks -/

/-- Whether a token neither opens nor closes a group nor refers to a capture nor recurses. -/
def Kind.isOrdinary : Kind → Bool
  | alternation | quantifier _ | assertion | atom => true
  | _ => false

/-- The text `w` is read as `ts` before every text that begins like `rest`. -/
def Relexes (g : Grammar) (w rest : List Char) (ts : List Host.Token) : Prop :=
  ∀ x : Dialect, x.Suits g → ∀ rest', SameStart rest rest' → LexesBefore x 0 0 w ts rest'

/-- A stretch `w` of a pattern before `rest`, with what the host and the scanner make of it. -/
inductive Chunk (g : Grammar) :
    (w rest : List Char) → (ts : List Host.Token) → (us : List Token) → Prop where
  | ordinary {w rest : List Char} {ts : List Host.Token} {us : List Token}
    (hts : ∀ t ∈ ts, t.isOrdinary) (hus : ∀ u ∈ us, u.kind.isOrdinary) (hw : textOf us = w)
    (hstart : ∀ a b, SameStart (w ++ a) (w ++ b)) (hlex : Relexes g w rest ts) : Chunk g w rest ts us
  | opens {rest : List Char} {o : Opener} {u : Token} (ha : o ≠ .atomic) (hc : ∀ name, o ≠ .capture name)
    (hu : u.kind = .groupOpen ∨ u.kind = .lookOpen) (hstart : u.text.head? = some '(')
    (hlex : Relexes g u.text rest [.groupOpen o]) : Chunk g u.text rest [.groupOpen o] [u]
  | captures {rest : List Char} {name title : Option (List Char)} (hname : Option.Rel NameForm title name)
    (hlex : Relexes g (openerText title) rest [.groupOpen (.capture name)]) :
    Chunk g (openerText title) rest [.groupOpen (.capture name)] [captureToken title]
  | atomic {rest : List Char} (hr : rest.head? ≠ some '?') :
    Chunk g "(?>".toList rest [.groupOpen .atomic] [⟨.atomicOpen, "(?>".toList⟩]
  | closes {rest : List Char} : Chunk g [')'] rest [.groupClose] [⟨.close, [')']⟩]
  | refers {rest : List Char} {k : Nat} (hk : 0 < k) (hr : rest.head?.any (isDigit 10) = false) :
    Chunk g (referenceText k) rest [.numbered k] [referenceToken k]

/-! ## Escapes -/

/-- The characters behind a backslash with which a longer escape begins, or one of another kind. -/
def escapeLetters : List Char := "bBkgpPuxc".toList

/-- An escape that is complete with the escaped character. -/
theorem escape_single (h : c ∉ escapeLetters) (hd : isDigit 10 c → c = '0') (cs : List Char) :
    escape (c :: cs) = .ok (.atom, 1) := by
  have hnot : ('1' ≤ c && c ≤ '9') = false := by
    rw [← Bool.not_eq_true]
    intro hrange
    simp only [Bool.and_eq_true, decide_eq_true_eq, Char.le_def] at hrange
    have hdigit : isDigit 10 c := by
      rw [isDigit_ten]
      simp only [Char.isDigit, Bool.and_eq_true, decide_eq_true_eq]
      exact ⟨UInt32.le_trans (by decide) hrange.1, hrange.2⟩
    rw [hd hdigit] at hrange
    exact absurd hrange.1 (by decide)
  unfold escape
  split
  next heq => cases heq
  iterate 11
    next heq =>
      rw [(List.cons.inj heq).1] at h
      exact absurd (by decide) h
  next heq =>
    obtain ⟨rfl, rfl⟩ := List.cons.inj heq
    rw [hnot]
    rfl

theorem reads_single {u : Token} (h : u.Sound) (hr : ∀ c ∈ rest.head?, u.admits c) :
    Reads [u] rest :=
  ⟨h rest hr, trivial⟩

theorem sound_single (h : c ∉ escapeLetters) (hd : isDigit 10 c → c = '0') :
    Token.Sound ⟨.atom, ['\\', c]⟩ :=
  Token.sound_of_forall rfl fun follow => escape_single h hd follow

/-- An escape with a fixed number of digits. -/
theorem sound_digits {k : Char} (hk : (k, n) ∈ [('x', 2), ('u', 4)]) (hl : ds.length = n)
    (hds : ∀ c ∈ ds, isDigit 16 c) : Token.Sound ⟨.atom, '\\' :: k :: ds⟩ := by
  refine Token.sound_of_forall rfl fun follow => ?_
  have hbrace : ∀ tail, ds ++ follow = '\x7b' :: tail → False := by
    intro tail heq
    obtain ⟨d, ds, rfl⟩ : ∃ d ds', ds = d :: ds' := by
      cases ds with
      | nil => simp [← hl] at hk
      | cons d ds => exact ⟨d, ds, rfl⟩
    have hd : isDigit 16 d := hds d List.mem_cons_self
    exact ne_of_isDigit hd (by decide) (List.cons.inj heq).1
  have hwith : atomWith 1 n (ds ++ follow) = .ok (.atom, n + 1) := by
    simp [atomWith, hl, Nat.add_comm]
  simp only [List.mem_cons, Prod.mk.injEq, List.not_mem_nil, or_false] at hk
  rcases hk with ⟨rfl, rfl⟩ | ⟨rfl, rfl⟩
  · show escape ('x' :: (ds ++ follow)) = _
    rw [escape, hwith, List.length_cons, hl]
    exact hbrace
  · show escape ('u' :: (ds ++ follow)) = _
    rw [escape, hwith, List.length_cons, hl]
    exact hbrace

/-- The tokens of an escape that writes a code point: there are two for a surrogate pair. -/
theorem exists_reads_codeForm (h : CodeForm g false w rest n) :
    ∃ us : List Token, textOf us = '\\' :: w ∧ (∀ u ∈ us, u.kind = .atom) ∧
      ∀ follow, Reads us follow := by
  have hsingle : ∀ {w : List Char}, Token.Sound ⟨.atom, '\\' :: w⟩ →
      ∃ us : List Token, textOf us = '\\' :: w ∧ (∀ u ∈ us, u.kind = .atom) ∧
        ∀ follow, Reads us follow := by
    intro w hs
    refine ⟨[⟨.atom, '\\' :: w⟩], by simp, by simp, fun follow => reads_single hs ?_⟩
    simp [Token.admits]
  cases h with
  | letter h =>
    have hall : ∀ p ∈ controlLetters, p.1 ∉ escapeLetters ∧ (isDigit 10 p.1 → p.1 = '0') := by decide
    exact hsingle (sound_single (hall _ h).1 (hall _ h).2)
  | control h => exact hsingle (Token.sound_of_forall rfl fun follow => rfl)
  | hex hl h => exact hsingle (sound_digits (by decide) hl (digits_of_number? h).2)
  | unicode h =>
    cases h with
    | braced h =>
      have hds := (digits_of_number? h).2
      exact hsingle (sound_braced (by decide) fun hmem => ne_of_isDigit (hds _ hmem) (by decide) rfl)
    | unit hl h hp => exact hsingle (sound_digits (by decide) hl (digits_of_number? h).2)
    | @pair ds es _ _ _ hl h hl' hes hp =>
      refine ⟨[⟨.atom, '\\' :: 'u' :: ds⟩, ⟨.atom, '\\' :: 'u' :: es⟩], by simp, by simp, fun follow => ?_⟩
      exact ⟨sound_digits (by decide) hl (digits_of_number? h).2 _ (by simp [Token.admits]),
        sound_digits (by decide) hl' hes _ (by simp [Token.admits]), trivial⟩
  | backspace h => cases h
  | zero h => exact hsingle (sound_single (by decide) fun _ => rfl)
  | itself h =>
    have hall : ∀ c ∈ escapables, c ∉ escapeLetters ∧ (isDigit 10 c → c = '0') :=
      List.all_iff_forall_prop.1 (by decide)
    have hc := hall _ (mem_escapables h)
    exact hsingle (sound_single hc.1 hc.2)

/-! ## Openers and quantifiers -/

theorem sound_modified {change : ModeChange} (h : ChangeForm text change) :
    Token.Sound ⟨.groupOpen, '(' :: '?' :: (text ++ [':'])⟩ := by
  refine Token.sound_of_forall rfl fun follow => ?_
  have hall : ∀ c ∈ ['i', 'm', 's', '-'], (c.isAlpha || c = '-') = true ∧ c ≠ ':' ∧ c ≠ '>' ∧
      c ≠ '=' ∧ c ≠ '!' ∧ c ≠ '<' ∧ c ≠ 'R' := List.all_iff_forall_prop.1 (by decide)
  have htake : (text ++ ':' :: follow).takeWhile (fun c => c.isAlpha || c = '-') = text := by
    rw [List.takeWhile_append_of_pos fun c hc => (hall c (h.letters c hc)).1,
      List.takeWhile_cons_of_neg (by decide), List.append_nil]
  have hopen : groupOpener ('?' :: (text ++ ':' :: follow)) = .ok (.groupOpen, text.length + 2) := by
    obtain ⟨c, cs, hcs, hc⟩ := h.exists_cons
    have hfirst := hall c hc
    have hhead : ∀ d tail, text ++ ':' :: follow = d :: tail → d = c := by
      intro d tail heq
      rw [hcs] at heq
      exact (List.cons.inj heq).1.symm
    rw [groupOpener]
    · rw [htake, List.drop_left, if_pos List.head?_cons]
    all_goals
      intro tail heq
      rw [← hhead _ _ heq] at hfirst
      simp at hfirst
  simpa [scanAfter] using hopen

theorem isSign_of_signForm {min : Nat} {max : Option Nat} (h : SignForm w min max) : IsSign w := by
  have hdigit : ∀ {ds : List Char}, (∀ c ∈ ds, isDigit 10 c) → ∀ c ∈ ds, c.isDigit := fun hds c hc => by
    rw [← isDigit_ten]
    exact hds c hc
  cases h with
  | star => exact isSign_star
  | plus => exact isSign_plus
  | optional => exact isSign_question
  | @exactly ds hne hds =>
    refine isSign_interval fun rest => ?_
    have hlow : digitCount (ds ++ '\x7d' :: rest) = ds.length :=
      digitCount_append (hdigit hds) (by simp)
    simp [intervalLength?, hlow, hne]
  | @atLeast ds hne hds =>
    refine isSign_interval fun rest => ?_
    have hlow : digitCount (ds ++ ',' :: '\x7d' :: rest) = ds.length :=
      digitCount_append (hdigit hds) (by simp)
    have hhigh : digitCount ('\x7d' :: rest) = 0 := by simp [digitCount, isDigit_ten]
    simp [intervalLength?, hlow, hne, hhigh]
  | @between ds es hne hds hne' hes =>
    refine isSign_interval fun rest => ?_
    have hlow : digitCount (ds ++ ',' :: (es ++ '\x7d' :: rest)) = ds.length :=
      digitCount_append (hdigit hds) (by simp)
    have hhigh : digitCount (es ++ '\x7d' :: rest) = es.length :=
      digitCount_append (hdigit hes) (by simp)
    simp [intervalLength?, hlow, hne, hhigh]
    omega

/-! ## Tokens as chunks -/

/-- Two texts that begin with the same token begin alike. -/
theorem sameStart_of_plainForm (h : PlainForm g extended w rest t) (a b : List Char) :
    SameStart (w ++ a) (w ++ b) := by
  cases h with
  | mark h =>
    have hall : ∀ p ∈ plainMarks, p.1 ≠ '\\' := by decide
    exact sameStart_cons (hall _ h) a b
  | @char c _ h =>
    refine sameStart_cons ?_ a b
    rintro rfl
    exact absurd h (by decide)
  | opener => exact sameStart_cons (by decide) _ _
  | classOpen => exact sameStart_cons (by decide) _ _
  | negatedOpen => exact sameStart_cons (by decide) _ _
  | greedy h => cases h <;> exact sameStart_cons (by decide) _ _
  | lazy h => cases h <;> exact sameStart_cons (by decide) _ _
  | edge h =>
    have hall : ∀ p ∈ edgeLetters, p.1 ≠ 'u' := by decide
    exact sameStart_escape (hall _ h) (hall _ h) a b
  | @numbered ds _ hz hds =>
    cases ds with
    | nil => cases hz
    | cons d ds =>
      have hd : d ≠ 'u' := ne_of_isDigit (hds d List.mem_cons_self) (by decide)
      exact sameStart_escape hd hd _ _
  | named => exact sameStart_escape (by decide) (by decide) _ _
  | set h =>
    obtain ⟨c, v, rfl, hc⟩ := h.exists_cons
    have hall : ∀ c ∈ setStarts, c ≠ 'u' := List.all_iff_forall_prop.1 (by decide)
    exact sameStart_escape (hall c hc) (hall c hc) _ _
  | code h =>
    cases h with
    | letter h =>
      have hall : ∀ p ∈ controlLetters, p.1 ≠ 'u' := by decide
      exact sameStart_escape (hall _ h) (hall _ h) _ _
    | control | hex | zero => exact sameStart_escape (by decide) (by decide) _ _
    | unicode h =>
      cases h with
      | braced h => exact sameStart_closed (by decide) (by decide) (by decide) ['\\', 'u'] _ _
      | unit hl h hp =>
        refine ⟨rfl, fun lead => ?_⟩
        exact (surrogatePair?_append hl lead a).trans (surrogatePair?_append hl lead b).symm
      | pair hl h hl' hes hp =>
        refine ⟨rfl, fun lead => ?_⟩
        simp only [List.cons_append, List.append_assoc]
        exact (surrogatePair?_append hl lead _).trans (surrogatePair?_append hl lead _).symm
    | backspace h => cases h
    | itself h =>
      have hall : ∀ c ∈ escapables, c ≠ 'u' := List.all_iff_forall_prop.1 (by decide)
      have hc := hall _ (mem_escapables h)
      exact sameStart_escape hc hc _ _

theorem relexes_of_plainForm (h : PlainForm g extended w rest t) (ha : t ≠ .groupOpen .atomic)
    (hd : t.classDepth 0 = 0) : Relexes g w rest [t] := by
  intro x hx rest' hs
  have hlexes := (h.follow hs ha x.extended).lexesBefore hx
  rwa [hd] at hlexes

section

variable (h : PlainForm g extended w rest t)

include h

/-- An ordinary token of the host, whatever the scanner makes of it. -/
theorem exists_chunk_ordinary (ht : t.isOrdinary) (hd : t.classDepth 0 = 0) (hw : textOf us = w)
    (hus : ∀ u ∈ us, u.kind.isOrdinary) (hreads : Reads us rest) :
    ∃ vs, Chunk g w rest [t] vs ∧ textOf vs = w ∧ Reads vs rest := by
  have ha : t ≠ .groupOpen .atomic := by
    rintro rfl
    cases ht
  exact ⟨us, .ordinary (by simpa using ht) hus hw (sameStart_of_plainForm h)
    (relexes_of_plainForm h ha hd), hw, hreads⟩

/-- A token that is ordinary for both. -/
theorem exists_chunk_single (ht : t.isOrdinary) (hd : t.classDepth 0 = 0) {kind : Kind}
    (hk : kind.isOrdinary) (hs : Token.Sound ⟨kind, w⟩)
    (hr : ∀ c ∈ rest.head?, Token.admits ⟨kind, w⟩ c) :
    ∃ vs, Chunk g w rest [t] vs ∧ textOf vs = w ∧ Reads vs rest := by
  have hw : textOf [(⟨kind, w⟩ : Token)] = w := by simp
  exact exists_chunk_ordinary h ht hd hw (by simpa using hk) (reads_single hs hr)

end

/-! ### References -/

/-- The scanner refuses a reference whose number is no machine word. -/
theorem scanAfter_reference (hz : ds.head?.any (· != '0')) (hds : ∀ c ∈ ds, isDigit 10 c)
    (hr : rest.head?.any (isDigit 10) = false) :
    scanAfter '\\' (ds ++ rest) = if ofDigits 10 ds < 2 ^ 64
      then .ok (.backreference (ofDigits 10 ds), ds.length)
      else .error (.invalidReference .backreference, ds.length) := by
  have hspan := span_append hds hr
  rw [List.span_eq_takeWhile_dropWhile] at hspan
  have hcount : digitCount (ds ++ rest) = ds.length := by rw [digitCount, (Prod.mk.inj hspan).1]
  obtain ⟨d, ds, rfl⟩ : ∃ d tail, ds = d :: tail := List.exists_cons_of_ne_nil (by rintro rfl; cases hz)
  have hdigit : d.isDigit := isDigit_ten d ▸ hds d List.mem_cons_self
  have hescape := escape_digit hdigit (by simpa using hz) (ds ++ rest)
  rw [← List.cons_append, hcount, List.take_left] at hescape
  show escape (d :: ds ++ rest) = _
  rw [hescape, number?, if_neg (by simpa using hds)]
  by_cases hk : ofDigits 10 (d :: ds) < 2 ^ 64
  · simp only [if_pos hk]
  · simp only [if_neg hk]

theorem lt_of_scanFrom {k : Nat} (h : PlainForm g extended w rest (.numbered k))
    (hscan : scanFrom position (w ++ rest) = .ok us) : k < 2 ^ 64 := by
  cases h with
  | mark h => simp [plainMarks] at h
  | numbered hz hds hr =>
    by_contra hk
    rw [List.cons_append, scanFrom, scanAfter_reference hz hds hr, if_neg hk] at hscan
    cases hscan

/-! ### All tokens outside classes -/

theorem sound_char (h : isSyntaxChar c = false) : Token.Sound ⟨.atom, [c]⟩ := by
  refine Token.sound_of_forall rfl fun follow => ?_
  unfold scanAfter
  split <;> first | rfl | exact absurd h (by decide)

/-- An opener is one token for both. -/
theorem exists_chunk_opener {o : Opener} (ho : OpenerForm extended w rest o)
    (hr : rest.head? ≠ some '?') :
    ∃ us, Chunk g ('(' :: w) rest [.groupOpen o] us ∧ textOf us = '(' :: w ∧ Reads us rest := by
  have hform : PlainForm g extended ('(' :: w) rest (.groupOpen o) := .opener ho
  have hopens : ∀ {kind : Kind}, o ≠ .atomic → (∀ name, o ≠ .capture name) →
      kind = .groupOpen ∨ kind = .lookOpen → Token.Sound ⟨kind, '(' :: w⟩ →
      ∃ us, Chunk g ('(' :: w) rest [.groupOpen o] us ∧ textOf us = '(' :: w ∧ Reads us rest := by
    intro kind ha hc hk hs
    have hlex : Relexes g ('(' :: w) rest [.groupOpen o] :=
      relexes_of_plainForm hform (fun heq => ha (Token.groupOpen.inj heq)) rfl
    refine ⟨[⟨kind, '(' :: w⟩], .opens (u := ⟨kind, '(' :: w⟩) ha hc hk rfl hlex, by simp,
      reads_single hs fun c _ => ?_⟩
    rcases hk with rfl | rfl <;> rfl
  have hcaptures : ∀ (name title : Option (List Char)), Option.Rel NameForm title name →
      o = .capture name → '(' :: w = openerText title → (captureToken title).Sound →
      ∃ us, Chunk g ('(' :: w) rest [.groupOpen o] us ∧ textOf us = '(' :: w ∧ Reads us rest := by
    intro name title hform' hname hw hs
    subst hname
    have hlex := relexes_of_plainForm hform (by simp) rfl
    rw [hw] at hlex ⊢
    refine ⟨[captureToken title], .captures hform' hlex, by simp [captureToken], reads_single hs fun c hc => ?_⟩
    have hne : c ≠ '?' := by
      rintro rfl
      exact hr hc
    cases title <;> simp [captureToken, Token.admits, hne]
  cases ho with
  | plain => exact hopens (by simp) (by simp) (.inl rfl) sound_group
  | @look w _ l h =>
    have htext : '(' :: w = lookText l := by
      simp only [lookMarks, List.mem_cons, Prod.mk.injEq, List.not_mem_nil, or_false] at h
      rcases h with ⟨rfl, rfl⟩ | ⟨rfl, rfl⟩ | ⟨rfl, rfl⟩ | ⟨rfl, rfl⟩ <;> rfl
    exact hopens (by simp) (by simp) (.inr rfl) (htext ▸ sound_look l)
  | @named v name _ h =>
    refine hcaptures (some name) (some v) (.some h.chars) rfl rfl
      (sound_named h.chars.closer_not_mem ?_)
    obtain ⟨c, cs, rfl, heq, hbang⟩ := h.exists_cons
    intro d hd
    cases hd
    exact ⟨heq, hbang⟩
  | atomic h =>
    exact ⟨[⟨.atomicOpen, "(?>".toList⟩], .atomic hr, by simp, reads_single sound_atomic fun c _ => rfl⟩
  | modified h => exact hopens (by simp) (by simp) (.inl rfl) (sound_modified h)
  | capture h => exact hcaptures none none .none rfl rfl sound_capture

/-- What the host reads as one token outside classes is a chunk, if its number is a machine word. -/
theorem exists_chunk_of_plainForm (h : PlainForm g extended w rest t) (hd : t.classDepth 0 = 0)
    (hbars : t.barsQuantifier → ∀ c ∈ rest.head?, c ≠ '+' ∧ c ≠ '?')
    (hnumber : ∀ n, t = .numbered n → n < 2 ^ 64) :
    ∃ vs, Chunk g w rest [t] vs ∧ textOf vs = w ∧ Reads vs rest := by
  have hform := h
  have hatom : t.isOrdinary → Token.Sound ⟨.atom, w⟩ →
      ∃ vs, Chunk g w rest [t] vs ∧ textOf vs = w ∧ Reads vs rest :=
    fun ht hs => exists_chunk_single hform ht hd rfl hs fun c _ => rfl
  cases h with
  | mark h =>
    simp only [plainMarks, List.mem_cons, Prod.mk.injEq, List.not_mem_nil, or_false] at h
    have hassertion : ∀ {c : Char}, c ∈ ['^', '$'] → Token.Sound ⟨.assertion, [c]⟩ := by
      intro c hc
      simp only [List.mem_cons, List.not_mem_nil, or_false] at hc
      rcases hc with rfl | rfl <;> exact Token.sound_of_forall rfl fun _ => rfl
    rcases h with ⟨rfl, rfl⟩ | ⟨rfl, rfl⟩ | ⟨rfl, rfl⟩ | ⟨rfl, rfl⟩ | ⟨rfl, rfl⟩
    · exact exists_chunk_single hform rfl rfl rfl (hassertion (by decide)) fun c _ => rfl
    · exact exists_chunk_single hform rfl rfl rfl (hassertion (by decide)) fun c _ => rfl
    · exact hatom rfl (Token.sound_of_forall rfl fun _ => rfl)
    · exact exists_chunk_single hform rfl rfl rfl sound_bar fun c _ => rfl
    · exact ⟨[⟨.close, [')']⟩], .closes, rfl, reads_single sound_close fun c _ => rfl⟩
  | char h => exact hatom rfl (sound_char h)
  | opener ho => exact exists_chunk_opener ho fun hhead => (hbars rfl _ hhead).2 rfl
  | classOpen | negatedOpen => cases hd
  | greedy hs hb hr =>
    have hsound := sound_sign (isSign_of_signForm hs) .greedy
    rw [suffixText, List.append_nil] at hsound
    refine exists_chunk_single hform rfl rfl rfl hsound fun c hc => ?_
    simp [Token.admits, hbars rfl c hc]
  | lazy hs hb =>
    have hsound := sound_sign (isSign_of_signForm hs) .lazy
    refine exists_chunk_single hform rfl rfl rfl hsound fun c hc => ?_
    simp [Token.admits, hbars rfl c hc]
  | @edge c _ e he =>
    have hsound : Token.Sound ⟨.assertion, ['\\', c]⟩ := by
      simp only [edgeLetters, List.mem_cons, Prod.mk.injEq, List.not_mem_nil, or_false] at he
      rcases he with ⟨rfl, rfl⟩ | ⟨rfl, rfl⟩ <;> exact Token.sound_of_forall rfl fun _ => rfl
    exact exists_chunk_single hform rfl rfl rfl hsound fun c _ => rfl
  | @numbered ds _ hz hds hr =>
    have htext : referenceText (ofDigits 10 ds) = '\\' :: ds := by
      rw [referenceText_eq, toDigits_ofDigits hz hds]
    have hchunk := Chunk.refers (g := g) (ofDigits_pos hz hds) hr
    rw [referenceToken, htext] at hchunk
    refine ⟨_, hchunk, by simp, ?_, trivial⟩
    refine ⟨'\\', ds, rfl, ?_⟩
    rw [textOf_nil, List.nil_append, scanAfter_reference hz hds hr, if_pos (hnumber _ rfl)]
  | @named v name _ hn =>
    refine hatom rfl (Token.sound_of_forall rfl fun follow => ?_)
    have hthrough : atomThrough '>' 2 (v ++ '>' :: follow) = .ok (.atom, v.length + 3) := by
      rw [atomThrough, lengthThrough_append hn.chars.closer_not_mem]
      simp [Nat.add_comm]
    show escape ('k' :: '<' :: (v ++ ['>'] ++ follow)) = _
    rw [List.append_assoc, List.singleton_append, escape, hthrough]
    simp
  | set hs =>
    cases hs with
    | letter hl =>
      have hall : ∀ c ∈ setLetters.map (·.1), c ∉ escapeLetters ∧ (isDigit 10 c → c = '0') :=
        List.all_iff_forall_prop.1 (by decide)
      have hc := hall _ (List.mem_map.2 ⟨_, hl, rfl⟩)
      exact hatom rfl (sound_single hc.1 hc.2)
    | property hc hb hs =>
      have hall : ∀ c ∈ ['p', 'P'], c ∈ ['p', 'P', 'u', 'x'] :=
        List.all_iff_forall_prop.1 (by decide)
      exact hatom rfl (sound_braced (hall _ hc) hb)
  | code hc =>
    obtain ⟨vs, hw, hk, hreads⟩ := exists_reads_codeForm hc
    exact exists_chunk_ordinary hform rfl rfl hw (fun u hu => by rw [hk u hu]; rfl) (hreads rest)

/-! ## Classes as chunks -/

theorem exists_of_classOpen {negated : Bool} (h : PlainForm g extended w rest (.classOpen negated)) :
    ∃ v, w = '[' :: v ∧ Passes v := by
  cases h with
  | mark h => simp [plainMarks] at h
  | classOpen => exact ⟨[], rfl, passes_nil⟩
  | negatedOpen => exact ⟨['^'], rfl, passes_char (by decide)⟩

theorem classLength_of_scanFrom {cs : List Char} (h : scanFrom position ('[' :: cs) = .ok us) :
    ∃ m, classLength 0 0 cs = .ok m := by
  cases hm : classLength 0 0 cs with
  | ok m => exact ⟨m, rfl⟩
  | error e =>
    have hafter : scanAfter '[' cs = .error e := by rw [scanAfter, hm, Except.map]
    rw [scanFrom, hafter] at h
    cases h

/-- A class is a chunk, if the scanner finds its end. -/
theorem exists_chunk_class {x : Dialect} {g : Grammar} (hx : x.Suits g) {v rest : List Char}
    {negated : Bool} (h : PlainForm g x.extended ('[' :: v) rest (.classOpen negated))
    (hv : Passes v) {ts : List Host.Token} (hts : tokensFrom? x 1 rest = some ts) {m : Nat}
    (hm : classLength 0 0 (v ++ rest) = .ok m) :
    ∃ w tail front later u, rest = w ++ tail ∧ ts = front ++ later ∧
      tokensFrom? x 0 tail = some later ∧ u.text = '[' :: (v ++ w) ∧ Reads [u] tail ∧
      Chunk g u.text tail (.classOpen negated :: front) [u] ∧
      bracketExcess (u.text ++ tail) = bracketExcess tail := by
  have hlength := hm
  rw [hv.length] at hm
  obtain ⟨w, tail, front, later, rfl, rfl, rfl, hlater, hordinary, hexcess, hlexes⟩ :=
    endsAt_of_classLength hx hts hm
  refine ⟨w ++ [']'], tail, front, later, ⟨.atom, '[' :: (v ++ (w ++ [']']))⟩, by simp, rfl, hlater,
    rfl, ⟨?_, trivial⟩, ?_, ?_⟩
  · refine ⟨'[', v ++ (w ++ [']']), rfl, ?_⟩
    show (classLength 0 0 (v ++ (w ++ [']']) ++ tail)).map _ = _
    rw [List.append_assoc, List.append_assoc, List.singleton_append, hlength]
    simp [Except.map, Nat.add_assoc]
  · have hlex : Relexes g ('[' :: (v ++ (w ++ [']']))) tail (.classOpen negated :: front) := by
      intro y hy tail' _
      have hstart := sameStart_closed (z := ']') (by decide) (by decide) (by decide) w tail tail'
      have hfirst := (h.follow hstart (by simp) y.extended).lexesBefore hy
      rw [List.append_cons] at hfirst
      exact hfirst.append (hlexes y hy tail')
    exact .ordinary (List.forall_mem_cons.2 ⟨rfl, hordinary⟩) (by simp [Kind.isOrdinary]) (by simp)
      (fun a b => sameStart_cons (by decide) _ _) hlex
  · rw [List.cons_append, bracketExcess_open, List.append_assoc, hv.excess]
    simpa using hexcess

/-! ## All of a pattern -/

section

variable {x : Dialect} (hx : x.Suits g)

include hx

/-- The first token of a pattern. -/
theorem exists_front {cs : List Char} {ts : List Host.Token}
    (hts : tokensFrom? x 0 (c :: cs) = some ts) :
    ∃ v rest t later, cs = v ++ rest ∧ ts = t :: later ∧ PlainForm g x.extended (c :: v) rest t ∧
      tokensFrom? x (t.classDepth 0) rest = some later := by
  rw [tokensFrom?_cons] at hts
  obtain ⟨⟨t, taken⟩, ht, hts⟩ := Option.bind_eq_some_iff.1 hts
  obtain ⟨later, hlater, rfl⟩ := Option.map_eq_some_iff.1 hts
  obtain ⟨v, rest, rfl, rfl, hv⟩ := exists_plainForm hx.strict hx.named ht
  rw [hx.grammar] at hv
  rw [List.drop_left] at hlater
  exact ⟨v, rest, t, later, rfl, rfl, hv, hlater⟩

/-- The chunk that begins with a token, if the scanner gets over the token or the class that it
opens. -/
theorem exists_chunk_front {v : List Char} {later : List Host.Token}
    (hv : PlainForm g x.extended (c :: v) rest t)
    (hlater : tokensFrom? x (t.classDepth 0) rest = some later)
    (hchain : (t :: later).IsChain Host.Token.Precedes) (hnumber : ∀ n, t = .numbered n → n < 2 ^ 64)
    (hclass : ∀ negated, t = .classOpen negated → ∃ m, classLength 0 0 (v ++ rest) = .ok m) :
    ∃ w tail front after vs, c :: (v ++ rest) = w ++ tail ∧ w ≠ [] ∧ t :: later = front ++ after ∧
      Chunk g w tail front vs ∧ textOf vs = w ∧ Reads vs tail ∧ tokensFrom? x 0 tail = some after ∧
      bracketExcess (w ++ tail) = bracketExcess tail := by
  by_cases hopen : ∃ negated, t = .classOpen negated
  · obtain ⟨negated, rfl⟩ := hopen
    obtain ⟨v', hcons, hpass⟩ := exists_of_classOpen hv
    obtain ⟨rfl, rfl⟩ := List.cons.inj hcons
    obtain ⟨m, hm⟩ := hclass negated rfl
    obtain ⟨w, tail, front, later, u, rfl, rfl, htail, hu, hreads, hchunk, hexcess⟩ :=
      exists_chunk_class hx hv hpass hlater hm
    exact ⟨u.text, tail, _, later, [u], by simp [hu], by simp [hu], rfl, hchunk, by simp, hreads,
      htail, hexcess⟩
  · have hd : t.classDepth 0 = 0 := by
      cases t with
      | classOpen negated => exact absurd ⟨negated, rfl⟩ hopen
      | _ => rfl
    rw [hd] at hlater
    have hbars : t.barsQuantifier → ∀ c ∈ rest.head?, c ≠ '+' ∧ c ≠ '?' := by
      intro hquantifier d hd'
      obtain ⟨tail, rfl⟩ := List.head?_eq_some_iff.1 hd'
      rw [← not_or]
      intro hsign
      obtain ⟨q, later, rfl, hq⟩ := isQuantifier_of_sign hsign hlater
      have hprecedes := (List.isChain_cons_cons.1 hchain).1 hquantifier
      rw [hq] at hprecedes
      cases hprecedes
    obtain ⟨vs, hchunk, hvs, hreads⟩ := exists_chunk_of_plainForm hv hd hbars hnumber
    refine ⟨c :: v, rest, [t], later, vs, rfl, by simp, rfl, hchunk, hvs, hreads, hlater, ?_⟩
    generalize c :: v = w at hv
    cases bracketStep_of_plainForm hv 0 with
    | pass hw hdepth => exact hw.excess rest
    | opens hw hdepth => omega
    | closes ht hdepth => omega
    | stray hg hin hdepth => omega

/-- **A pattern that the host reads and the scanner divides is a sequence of chunks.** -/
theorem exists_chunk (hne : text ≠ []) {ts : List Host.Token}
    (hts : tokensFrom? x 0 text = some ts) (hchain : ts.IsChain Host.Token.Precedes)
    (hus : scanFrom position text = .ok us) :
    ∃ w rest front later vs later' position', text = w ++ rest ∧ w ≠ [] ∧ ts = front ++ later ∧
      us = vs ++ later' ∧ Chunk g w rest front vs ∧ tokensFrom? x 0 rest = some later ∧
      scanFrom position' rest = .ok later' := by
  obtain ⟨c, cs, rfl⟩ := List.exists_cons_of_ne_nil hne
  obtain ⟨v, rest, t, later, rfl, rfl, hv, hlater⟩ := exists_front hx hts
  have hclass : ∀ negated, t = .classOpen negated → ∃ m, classLength 0 0 (v ++ rest) = .ok m := by
    rintro negated rfl
    obtain ⟨v', hcons, -⟩ := exists_of_classOpen hv
    obtain ⟨rfl, -⟩ := List.cons.inj hcons
    exact classLength_of_scanFrom hus
  obtain ⟨w, tail, front, after, vs, htext, hw, hts, hchunk, hvs, hreads, htail, -⟩ :=
    exists_chunk_front hx hv hlater hchain (fun n hn => lt_of_scanFrom (hn ▸ hv) hus) hclass
  -- What the scanner finds behind the chunk.
  have hall := scanFrom_of_reads hreads position
  rw [hvs, ← htext, hus] at hall
  cases hrest : scanFrom (position + w.length) tail with
  | error e =>
    rw [hrest] at hall
    cases hall
  | ok later' =>
    rw [hrest] at hall
    exact ⟨w, tail, front, after, vs, later', _, htext, hw, hts, Except.ok.inj hall, hchunk, htail, hrest⟩

end

end Diglot.Emitted
