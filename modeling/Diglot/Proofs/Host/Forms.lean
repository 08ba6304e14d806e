import Diglot.Proofs.Host.Escapes
import Diglot.Proofs.Host.Lexing

/-!
# How tokens are written

A token of a strict grammar has one of a few forms, outside classes (`PlainForm`) and inside
(`ClassForm`). The lexer takes exactly what has a form, and where the token ends depends on little
of the text behind it: before a text that begins in the same way the token is read again
(`PlainForm.follow`, `ClassForm.follow`).
-/

namespace Diglot.Host

open Text

variable {w cs v name text rest rest' : List Char} {min k : Nat} {max : Option Nat}
  {change : ModeChange} {extended : Bool} {o : Opener} {c : Char} {t : Token} {g : Grammar}
  {x : Dialect}

/-! ## Quantifiers -/

/-- How the characters `w` write the bounds of a quantifier. -/
inductive SignForm : (w : List Char) → (min : Nat) → (max : Option Nat) → Prop where
  | star : SignForm ['*'] 0 none
  | plus : SignForm ['+'] 1 none
  | optional : SignForm ['?'] 0 (some 1)
  | exactly {ds : List Char} (hne : ds ≠ []) (hds : ∀ c ∈ ds, isDigit 10 c) :
    SignForm ('\x7b' :: (ds ++ ['\x7d'])) (ofDigits 10 ds) (some (ofDigits 10 ds))
  | atLeast {ds : List Char} (hne : ds ≠ []) (hds : ∀ c ∈ ds, isDigit 10 c) :
    SignForm ('\x7b' :: (ds ++ [',', '\x7d'])) (ofDigits 10 ds) none
  | between {ds es : List Char} (hne : ds ≠ []) (hds : ∀ c ∈ ds, isDigit 10 c) (hne' : es ≠ [])
    (hes : ∀ c ∈ es, isDigit 10 c) :
    SignForm ('\x7b' :: (ds ++ ',' :: (es ++ ['\x7d']))) (ofDigits 10 ds) (some (ofDigits 10 es))

section

variable {ds es : List Char} (hne : ds ≠ []) (hds : ∀ c ∈ ds, isDigit 10 c) (rest : List Char)

include hne hds

theorem bounds?_exactly : bounds? (ds ++ '\x7d' :: rest) =
    some (ofDigits 10 ds, some (ofDigits 10 ds), ds.length + 1) := by
  obtain ⟨d, ds, rfl⟩ := List.exists_cons_of_ne_nil hne
  rw [bounds?, span_append hds rfl]
  rfl

theorem bounds?_atLeast : bounds? (ds ++ ',' :: '\x7d' :: rest) =
    some (ofDigits 10 ds, none, ds.length + 2) := by
  obtain ⟨d, ds, rfl⟩ := List.exists_cons_of_ne_nil hne
  rw [bounds?, span_append hds rfl]
  rfl

theorem bounds?_between (hne' : es ≠ []) (hes : ∀ c ∈ es, isDigit 10 c) :
    bounds? (ds ++ ',' :: (es ++ '\x7d' :: rest)) =
      some (ofDigits 10 ds, some (ofDigits 10 es), ds.length + es.length + 2) := by
  obtain ⟨d, ds, rfl⟩ := List.exists_cons_of_ne_nil hne
  obtain ⟨e, es, rfl⟩ := List.exists_cons_of_ne_nil hne'
  simp only [bounds?, span_append hds (show ((',' :: (e :: es ++ '\x7d' :: rest)).head?.any _) = _ from rfl),
    span_append hes (show (('\x7d' :: rest).head?.any _) = _ from rfl)]

end

/-- The sign of a quantifier is read as its bounds. -/
theorem SignForm.plainToken?_eq (h : SignForm w min max) (x : Dialect) (rest : List Char) :
    ∃ c cs, w = c :: cs ∧
      plainToken? x c (cs ++ rest) = quantifier min max cs.length (cs ++ rest) := by
  cases h with
  | star => exact ⟨_, _, rfl, rfl⟩
  | plus => exact ⟨_, _, rfl, rfl⟩
  | optional => exact ⟨_, _, rfl, rfl⟩
  | @exactly ds hne hds =>
    refine ⟨_, _, rfl, ?_⟩
    rw [List.append_assoc, List.singleton_append, plainToken?, bounds?_exactly hne hds]
    simp
  | @atLeast ds hne hds =>
    refine ⟨_, _, rfl, ?_⟩
    rw [List.append_assoc, List.cons_append, List.singleton_append, plainToken?,
      bounds?_atLeast hne hds]
    simp
  | @between ds es hne hds hne' hes =>
    refine ⟨_, _, rfl, ?_⟩
    rw [List.append_assoc, List.cons_append, List.append_assoc, List.singleton_append, plainToken?,
      bounds?_between hne hds _ hne' hes]
    simp [Nat.add_assoc]

/-- **What is read as the bounds of a quantifier has one of the forms.** -/
theorem exists_signForm (h : bounds? cs = some (min, max, k)) :
    ∃ w rest, cs = w ++ rest ∧ w.length = k ∧ SignForm ('\x7b' :: w) min max := by
  unfold bounds? at h
  split at h
  next => cases h
  next low tail hne hspan =>
    obtain ⟨rfl, hds, -⟩ := of_span hspan
    cases h
    exact ⟨low ++ ['\x7d'], tail, by simp, by simp, .exactly (fun hnil => hne hnil) hds⟩
  next low tail hne hspan =>
    obtain ⟨rfl, hds, -⟩ := of_span hspan
    split at h
    next last hspan' =>
      cases h
      exact ⟨low ++ [',', '\x7d'], last, by simp [(of_span hspan').1], by simp,
        .atLeast (fun hnil => hne hnil) hds⟩
    next high last hne' hspan' =>
      obtain ⟨rfl, hes, -⟩ := of_span hspan'
      cases h
      exact ⟨low ++ ',' :: (high ++ ['\x7d']), last, by simp, by simp [Nat.add_assoc],
        .between (fun hnil => hne hnil) hds (fun hnil => hne' hnil) hes⟩
    next => cases h
  next => cases h

/-! ## Openers -/

/-- The looks by what stands behind the parenthesis. -/
def lookMarks : List (List Char × Look) :=
  [(['?', '='], ⟨false, false⟩), (['?', '!'], ⟨false, true⟩), (['?', '<', '='], ⟨true, false⟩),
    (['?', '<', '!'], ⟨true, true⟩)]

/-- How the characters `v` before a `>` write the name of a group. -/
structure GroupNameForm (v name : List Char) : Prop where
  chars : NameForm v name
  starts : name.head?.any startsName
  continues : name.all continuesName

theorem GroupNameForm.groupName?_eq (h : GroupNameForm v name) (rest : List Char) :
    groupName? (v ++ '>' :: rest) = some (name, v.length + 1) := by
  rw [groupName?, h.chars.nameChars?_eq]
  show (if name.head?.any startsName && name.all continuesName then _ else _) = _
  rw [h.starts, h.continues]
  rfl

theorem exists_groupNameForm (h : groupName? cs = some (name, k)) :
    ∃ v rest, cs = v ++ '>' :: rest ∧ v.length + 1 = k ∧ GroupNameForm v name := by
  obtain ⟨⟨found, taken⟩, hfound, h⟩ := Option.bind_eq_some_iff.1 h
  dsimp only at h
  split at h
  next hname =>
    cases h
    obtain ⟨v, rest, rfl, hl, hv⟩ := exists_nameForm hfound
    rw [Bool.and_eq_true] at hname
    exact ⟨v, rest, rfl, hl, hv, hname.1, hname.2⟩
  next => cases h

/-- A name begins neither with an equals sign nor with an exclamation mark. -/
theorem GroupNameForm.exists_cons (h : GroupNameForm v name) :
    ∃ c cs, v = c :: cs ∧ c ≠ '=' ∧ c ≠ '!' := by
  have hmarks : startsName '=' = false ∧ startsName '!' = false := by decide +kernel
  obtain ⟨hchars, hstarts, -⟩ := h
  cases hchars with
  | nil => cases hstarts
  | escape => exact ⟨_, _, rfl, by decide, by decide⟩
  | char =>
    refine ⟨_, _, rfl, ?_, ?_⟩ <;> rintro rfl <;> simp [hmarks] at hstarts

/-- How the characters `text` before a colon write a change of modes. -/
structure ChangeForm (text : List Char) (change : ModeChange) : Prop where
  letters : ∀ c ∈ text, c ∈ ['i', 'm', 's', '-']
  value : modeChange? (text ++ [':']) = some (change, text.length + 1)

theorem modeChange?_append (h : ':' ∉ text) (rest : List Char) :
    modeChange? (text ++ ':' :: rest) = modeChange? (text ++ [':']) := by
  rw [modeChange?, modeChange?, span_closed h, span_closed h]
  rfl

theorem ChangeForm.colon (h : ChangeForm text change) :
    ':' ∉ text := fun hmem => absurd (h.letters _ hmem) (by decide)

theorem ChangeForm.exists_cons (h : ChangeForm text change) :
    ∃ c cs, text = c :: cs ∧ c ∈ ['i', 'm', 's', '-'] := by
  cases text with
  | nil => cases h.value
  | cons c cs => exact ⟨c, cs, rfl, h.letters c List.mem_cons_self⟩

/-- The letters of modes. -/
theorem mem_of_ofLetters? {m : Mode} (h : Mode.ofLetters? cs = some m) :
    ∀ c ∈ cs, c ∈ ['i', 'm', 's'] := by
  induction cs generalizing m with
  | nil => simp
  | cons c cs ih =>
    obtain ⟨m', hm, h⟩ := Option.bind_eq_some_iff.1 h
    refine List.forall_mem_cons.2 ⟨?_, ih hm⟩
    split at h
    · decide
    · decide
    · decide
    · cases h

theorem letters_of_modeChange? (hcolon : ':' ∉ text)
    (h : modeChange? (text ++ [':']) = some (change, k)) :
    k = text.length + 1 ∧ ∀ c ∈ text, c ∈ ['i', 'm', 's', '-'] := by
  obtain ⟨⟨on, off⟩, hspan⟩ : ∃ parts, text.span (· != '-') = parts := ⟨_, rfl⟩
  unfold modeChange? at h
  simp only [span_closed hcolon, hspan] at h
  obtain ⟨rfl, -, hhyphen⟩ := of_span hspan
  rw [if_neg (by simp)] at h
  split at h
  next => cases h
  next =>
    obtain ⟨enabled, henabled, h⟩ := Option.bind_eq_some_iff.1 h
    obtain ⟨disabled, hdisabled, h⟩ := Option.bind_eq_some_iff.1 h
    split at h
    next => cases h
    next =>
      cases h
      refine ⟨rfl, fun c hc => ?_⟩
      have hletter : ∀ c ∈ ['i', 'm', 's'], c ∈ ['i', 'm', 's', '-'] :=
        List.all_iff_forall_prop.1 (by decide)
      rcases List.mem_append.1 hc with hc | hc
      · exact hletter c (mem_of_ofLetters? henabled c hc)
      · cases off with
        | nil => cases hc
        | cons d off =>
          rcases List.mem_cons.1 hc with rfl | hc
          · have heq : c = '-' := by simpa using hhyphen
            rw [heq]
            decide
          · exact hletter c (mem_of_ofLetters? hdisabled c hc)

theorem exists_changeForm (h : modeChange? cs = some (change, k)) :
    ∃ text rest, cs = text ++ ':' :: rest ∧ text.length + 1 = k ∧ ChangeForm text change := by
  obtain ⟨⟨text, rest⟩, hspan⟩ : ∃ parts, cs.span (· != ':') = parts := ⟨_, rfl⟩
  obtain ⟨rfl, htext, hhead⟩ := of_span hspan
  have hcolon : ':' ∉ text := fun hmem => by simpa using htext _ hmem
  cases rest with
  | nil =>
    rw [modeChange?, hspan] at h
    cases h
  | cons c rest =>
    obtain rfl : c = ':' := by simpa using hhead
    rw [modeChange?_append hcolon] at h
    obtain ⟨rfl, hletters⟩ := letters_of_modeChange? hcolon h
    exact ⟨text, rest, rfl, rfl, hletters, h⟩

/-- How the characters `w` behind a parenthesis open a group, when `rest` comes after them. -/
inductive OpenerForm (extended : Bool) : (w rest : List Char) → (o : Opener) → Prop where
  | plain {rest : List Char} : OpenerForm extended ['?', ':'] rest .plain
  | look {w rest : List Char} {l : Look} (h : (w, l) ∈ lookMarks) :
    OpenerForm extended w rest (.look l)
  | named {v name rest : List Char} (h : GroupNameForm v name) :
    OpenerForm extended ('?' :: '<' :: (v ++ ['>'])) rest (.capture (some name))
  | atomic {rest : List Char} (h : extended) : OpenerForm extended ['?', '>'] rest .atomic
  | modified {text rest : List Char} {change : ModeChange} (h : ChangeForm text change) :
    OpenerForm extended ('?' :: (text ++ [':'])) rest (.modified change)
  | capture {rest : List Char} (h : rest.head? ≠ some '?') :
    OpenerForm extended [] rest (.capture none)

theorem OpenerForm.opener?_eq (h : OpenerForm extended w rest o) :
    opener? extended (w ++ rest) = some (o, w.length) := by
  cases h with
  | plain => rfl
  | look h =>
    simp only [lookMarks, List.mem_cons, Prod.mk.injEq, List.not_mem_nil, or_false] at h
    rcases h with ⟨rfl, rfl⟩ | ⟨rfl, rfl⟩ | ⟨rfl, rfl⟩ | ⟨rfl, rfl⟩ <;> rfl
  | @named v name _ h =>
    have hname := h.groupName?_eq rest
    obtain ⟨c, cs, rfl, heq, hbang⟩ := h.exists_cons
    rw [List.cons_append, List.cons_append, List.append_assoc, List.singleton_append, opener?, hname]
    · simp
    · intro tail ht
      exact heq (List.cons.inj ht).1
    · intro tail ht
      exact hbang (List.cons.inj ht).1
  | atomic h => rw [h]; rfl
  | @modified text _ change h =>
    have hvalue := (modeChange?_append h.colon rest).trans h.value
    obtain ⟨c, cs, rfl, hc⟩ := h.exists_cons
    have hnot : c ≠ ':' ∧ c ≠ '=' ∧ c ≠ '!' ∧ c ≠ '<' ∧ c ≠ '>' := by
      simp only [List.mem_cons, List.not_mem_nil, or_false] at hc
      rcases hc with rfl | rfl | rfl | rfl <;> decide
    rw [List.cons_append, List.append_assoc, List.singleton_append, opener?, hvalue]
    · simp
    all_goals
      intro tail ht
      simp [(List.cons.inj ht).1] at hnot
  | capture h =>
    rw [List.nil_append, opener?]
    · rfl
    all_goals
      intro tail ht
      rw [ht] at h
      exact h rfl

/-- **What is read as the opener of a group has one of the forms.** -/
theorem exists_openerForm (h : opener? extended cs = some (o, k)) :
    ∃ w rest, cs = w ++ rest ∧ w.length = k ∧ OpenerForm extended w rest o := by
  unfold opener? at h
  split at h
  · cases h
    exact ⟨['?', ':'], _, rfl, rfl, .plain⟩
  · cases h
    exact ⟨['?', '='], _, rfl, rfl, .look (by decide)⟩
  · cases h
    exact ⟨['?', '!'], _, rfl, rfl, .look (by decide)⟩
  · cases h
    exact ⟨['?', '<', '='], _, rfl, rfl, .look (by decide)⟩
  · cases h
    exact ⟨['?', '<', '!'], _, rfl, rfl, .look (by decide)⟩
  · obtain ⟨⟨name, taken⟩, hname, h⟩ := Option.bind_eq_some_iff.1 h
    cases h
    obtain ⟨v, rest, rfl, hl, hv⟩ := exists_groupNameForm hname
    exact ⟨'?' :: '<' :: (v ++ ['>']), rest, by simp, by simp [hl], .named hv⟩
  · split at h
    next hx =>
      cases h
      exact ⟨['?', '>'], _, rfl, rfl, .atomic hx⟩
    next => cases h
  · obtain ⟨⟨change, taken⟩, hchange, h⟩ := Option.bind_eq_some_iff.1 h
    cases h
    obtain ⟨text, rest, rfl, hl, ht⟩ := exists_changeForm hchange
    exact ⟨'?' :: (text ++ [':']), rest, by simp, by simp [hl], .modified ht⟩
  · next hmark =>
    cases h
    refine ⟨[], cs, rfl, rfl, .capture fun hhead => ?_⟩
    obtain ⟨tail, rfl⟩ := List.head?_eq_some_iff.1 hhead
    exact hmark tail rfl

theorem OpenerForm.follow (h : OpenerForm extended w rest o) (hs : SameStart rest rest') :
    OpenerForm extended w rest' o := by
  cases h with
  | plain => exact .plain
  | look h => exact .look h
  | named h => exact .named h
  | atomic h => exact .atomic h
  | modified h => exact .modified h
  | capture h => exact .capture (hs.head ▸ h)

/-- Only atomic groups have to be admitted. -/
theorem OpenerForm.inDialect (h : OpenerForm extended w rest o) (ho : o ≠ .atomic)
    (extended' : Bool) : OpenerForm extended' w rest o := by
  cases h with
  | plain => exact .plain
  | look h => exact .look h
  | named h => exact .named h
  | atomic h => exact absurd rfl ho
  | modified h => exact .modified h
  | capture h => exact .capture h

/-! ## Tokens outside classes -/

/-- The characters that are tokens by themselves. -/
def plainMarks : List (Char × Token) :=
  [('^', .edge .lineStart), ('$', .edge .lineEnd), ('.', .any), ('|', .bar), (')', .groupClose)]

/-- The letters that stand for edges of words when they are escaped. -/
def edgeLetters : List (Char × Edge) :=
  [('b', .wordBoundary), ('B', .nonWordBoundary)]

/-- How the characters `w` write a token outside classes, when `rest` comes after them. -/
inductive PlainForm (g : Grammar) (extended : Bool) : (w rest : List Char) → (t : Token) → Prop where
  | mark {c : Char} {rest : List Char} {t : Token} (h : (c, t) ∈ plainMarks) :
    PlainForm g extended [c] rest t
  | char {c : Char} {rest : List Char} (h : isSyntaxChar c = false) :
    PlainForm g extended [c] rest (.code c.toNat)
  | opener {w rest : List Char} {o : Opener} (h : OpenerForm extended w rest o) :
    PlainForm g extended ('(' :: w) rest (.groupOpen o)
  | classOpen {rest : List Char} (h : rest.head? ≠ some '^') :
    PlainForm g extended ['['] rest (.classOpen false)
  | negatedOpen {rest : List Char} : PlainForm g extended ['[', '^'] rest (.classOpen true)
  | greedy {w rest : List Char} {min : Nat} {max : Option Nat} (h : SignForm w min max)
    (hb : max.any (· < min) = false) (hr : rest.head? ≠ some '?') :
    PlainForm g extended w rest (.quantifier min max false)
  | lazy {w rest : List Char} {min : Nat} {max : Option Nat} (h : SignForm w min max)
    (hb : max.any (· < min) = false) :
    PlainForm g extended (w ++ ['?']) rest (.quantifier min max true)
  | edge {c : Char} {rest : List Char} {e : Edge} (h : (c, e) ∈ edgeLetters) :
    PlainForm g extended ['\\', c] rest (.edge e)
  | numbered {ds rest : List Char} (hz : ds.head?.any (· != '0')) (hds : ∀ c ∈ ds, isDigit 10 c)
    (hr : rest.head?.any (isDigit 10) = false) :
    PlainForm g extended ('\\' :: ds) rest (.numbered (ofDigits 10 ds))
  | named {v name rest : List Char} (h : GroupNameForm v name) :
    PlainForm g extended ('\\' :: 'k' :: '<' :: (v ++ ['>'])) rest (.named name)
  | set {w rest : List Char} {s : CharSet} (h : SetForm g w s) :
    PlainForm g extended ('\\' :: w) rest (.set s)
  | code {w rest : List Char} {n : Nat} (h : CodeForm g false w rest n) :
    PlainForm g extended ('\\' :: w) rest (.code n)

/-- A text that begins with no digit but a zero is no reference. -/
theorem takeWhile_digits_head (h : ∀ c ∈ cs.head?, isDigit 10 c → c = '0') :
    (cs.takeWhile (isDigit 10)).head?.any (· != '0') = false := by
  cases cs with
  | nil => rfl
  | cons c cs =>
    by_cases hc : isDigit 10 c
    · have hzero := h c rfl hc
      subst hzero
      rw [List.takeWhile_cons_of_pos hc]
      rfl
    · rw [List.takeWhile_cons_of_neg hc]
      rfl

/-- An escape that is no edge and no reference. -/
theorem plainToken?_escape (hb : c ≠ 'b') (hB : c ≠ 'B') (hk : c ≠ 'k')
    (hd : isDigit 10 c → c = '0') : plainToken? x '\\' (c :: cs) =
      (setEscape? x.grammar (c :: cs)).elim (codeToken? x false (c :: cs))
        (·.map fun found => (.set found.1, found.2)) := by
  have hdigits : ((c :: cs).takeWhile (isDigit 10)).head?.any (· != '0') = false :=
    takeWhile_digits_head fun d hd' => Option.mem_some.1 hd' ▸ hd
  rw [plainToken?]
  · rw [hdigits]
    cases setEscape? x.grammar (c :: cs) <;> rfl
  · exact fun _ heq => hb (List.cons.inj heq).1
  · exact fun _ heq => hB (List.cons.inj heq).1
  · exact fun _ heq => hk (List.cons.inj heq).1

theorem quantifier_greedy (hb : max.any (· < min) = false) (hr : rest.head? ≠ some '?') :
    quantifier min max w.length (w ++ rest) = some (.quantifier min max false, w.length) := by
  rw [quantifier, if_neg (by simp [hb]), List.drop_left]
  cases rest with
  | nil => rfl
  | cons c cs =>
    split
    next h => exact absurd (congrArg List.head? h) hr
    next => rfl

theorem quantifier_lazy (hb : max.any (· < min) = false) (w rest : List Char) :
    quantifier min max w.length (w ++ '?' :: rest) = some (.quantifier min max true, w.length + 1) := by
  rw [quantifier, if_neg (by simp [hb]), List.drop_left]
  rfl

theorem PlainForm.plainToken?_eq (hx : x.isStrict) (hn : x.named)
    (h : PlainForm x.grammar x.extended w rest t) :
    ∃ c cs, w = c :: cs ∧ plainToken? x c (cs ++ rest) = some (t, cs.length) := by
  cases h with
  | mark h =>
    refine ⟨_, _, rfl, ?_⟩
    simp only [plainMarks, List.mem_cons, Prod.mk.injEq, List.not_mem_nil, or_false] at h
    rcases h with ⟨rfl, rfl⟩ | ⟨rfl, rfl⟩ | ⟨rfl, rfl⟩ | ⟨rfl, rfl⟩ | ⟨rfl, rfl⟩ <;> rfl
  | @char c _ h =>
    refine ⟨_, _, rfl, ?_⟩
    unfold plainToken?
    split
    iterate 14 exact absurd h (by decide)
    rfl
  | opener h =>
    refine ⟨_, _, rfl, ?_⟩
    rw [plainToken?, h.opener?_eq]
    rfl
  | classOpen h =>
    refine ⟨_, _, rfl, ?_⟩
    rw [plainToken?, List.nil_append, if_neg (by simpa using h)]
    rfl
  | negatedOpen => exact ⟨_, _, rfl, rfl⟩
  | greedy h hb hr =>
    obtain ⟨c, cs, rfl, hs⟩ := h.plainToken?_eq x rest
    exact ⟨c, cs, rfl, hs.trans (quantifier_greedy hb hr)⟩
  | lazy h hb =>
    obtain ⟨c, cs, rfl, hs⟩ := h.plainToken?_eq x ('?' :: rest)
    refine ⟨c, cs ++ ['?'], rfl, ?_⟩
    rw [List.append_assoc, List.singleton_append, hs, quantifier_lazy hb, List.length_append]
    rfl
  | edge h =>
    refine ⟨_, _, rfl, ?_⟩
    simp only [edgeLetters, List.mem_cons, Prod.mk.injEq, List.not_mem_nil, or_false] at h
    rcases h with ⟨rfl, rfl⟩ | ⟨rfl, rfl⟩ <;> rfl
  | @numbered ds _ hz hds hr =>
    refine ⟨_, _, rfl, ?_⟩
    have hspan := span_append hds hr
    rw [List.span_eq_takeWhile_dropWhile] at hspan
    have htake := (Prod.mk.inj hspan).1
    obtain ⟨d, ds, rfl⟩ : ∃ d ds', ds = d :: ds' := by
      cases ds with
      | nil => cases hz
      | cons d ds => exact ⟨d, ds, rfl⟩
    have hd : isDigit 10 d := hds d List.mem_cons_self
    rw [List.cons_append] at htake ⊢
    rw [plainToken?]
    · rw [htake, if_pos (by simpa [hx] using hz)]
    all_goals
      intro tail heq
      exact absurd ((List.cons.inj heq).1 ▸ hd) (by decide)
  | named h =>
    refine ⟨_, _, rfl, ?_⟩
    rw [List.cons_append, List.cons_append, List.append_assoc, List.singleton_append, plainToken?,
      if_pos hn, h.groupName?_eq]
    simp
  | @set w _ s h =>
    refine ⟨_, _, rfl, ?_⟩
    have hset := h.setEscape?_eq hx rest
    obtain ⟨c, cs, rfl, hc⟩ := h.exists_cons
    have hall : ∀ c ∈ setStarts, c ≠ 'b' ∧ c ≠ 'B' ∧ c ≠ 'k' ∧ (isDigit 10 c → c = '0') :=
      List.all_iff_forall_prop.1 (by decide)
    obtain ⟨hb, hB, hk, hd⟩ := hall c hc
    rw [List.cons_append] at hset ⊢
    rw [plainToken?_escape hb hB hk hd, hset]
    rfl
  | @code w _ n h =>
    refine ⟨_, _, rfl, ?_⟩
    have hset := h.setEscape?_eq_none
    have hcode := h.codeEscape?_eq hx
    obtain ⟨c, cs, rfl, hc, hb⟩ := h.exists_cons
    have hall : ∀ c ∈ codeStarts, c ≠ 'B' ∧ c ≠ 'k' ∧ (isDigit 10 c → c = '0') :=
      List.all_iff_forall_prop.1 (by decide)
    obtain ⟨hB, hk, hd⟩ := hall c hc
    rw [List.cons_append] at hset hcode ⊢
    rw [plainToken?_escape (fun h => Bool.false_ne_true (hb h)) hB hk hd, hset]
    show codeToken? x false (c :: (cs ++ rest)) = _
    rw [codeToken?, hcode]

theorem exists_codeForm_of_codeToken? (hx : x.isStrict) {inClass : Bool}
    (h : codeToken? x inClass cs = some (t, k)) : ∃ w rest n, cs = w ++ rest ∧
      w.length = k ∧ t = .code n ∧ CodeForm x.grammar inClass w rest n := by
  unfold codeToken? at h
  split at h
  next n taken hcode =>
    cases h
    obtain ⟨w, rest, rfl, hl, hw⟩ := exists_codeForm hx hcode
    exact ⟨w, rest, n, rfl, hl, rfl, hw⟩
  next =>
    rw [hx] at h
    cases h

/-- A token that begins with a backslash has one of the forms. -/
theorem exists_plainForm_escape (hx : x.isStrict) (hn : x.named)
    (h : plainToken? x '\\' cs = some (t, k)) :
    ∃ w rest, cs = w ++ rest ∧ w.length = k ∧ PlainForm x.grammar x.extended ('\\' :: w) rest t := by
  have hcode : codeToken? x false cs = some (t, k) → ∃ w rest, cs = w ++ rest ∧ w.length = k ∧
      PlainForm x.grammar x.extended ('\\' :: w) rest t := by
    intro h
    obtain ⟨w, rest, n, rfl, hl, rfl, hw⟩ := exists_codeForm_of_codeToken? hx h
    exact ⟨w, rest, rfl, hl, .code hw⟩
  simp only [plainToken?] at h
  split at h
  · cases h
    exact ⟨['b'], _, rfl, rfl, .edge (by decide)⟩
  · cases h
    exact ⟨['B'], _, rfl, rfl, .edge (by decide)⟩
  · split at h
    next rest =>
      rw [if_pos hn] at h
      obtain ⟨⟨name, taken⟩, hname, heq⟩ := Option.map_eq_some_iff.1 h
      cases heq
      obtain ⟨v, rest, rfl, hl, hv⟩ := exists_groupNameForm hname
      exact ⟨'k' :: '<' :: (v ++ ['>']), rest, by simp, by simp [hl], .named hv⟩
    next => exact hcode h
  · split at h
    next hdigits =>
      cases h
      have happend := List.takeWhile_append_dropWhile (p := isDigit 10) (l := cs)
      rw [Bool.and_eq_true] at hdigits
      refine ⟨_, _, happend.symm, rfl, .numbered hdigits.1
        (fun c hc => List.all_eq_true.1 List.all_takeWhile c hc) ?_⟩
      have hnot := List.head?_dropWhile_not (isDigit 10) cs
      cases hrest : (cs.dropWhile (isDigit 10)).head? with
      | none => rfl
      | some c =>
        rw [hrest] at hnot
        exact hnot
    next =>
      split at h
      next found hfound =>
        obtain ⟨⟨s, taken⟩, rfl, heq⟩ := Option.map_eq_some_iff.1 h
        cases heq
        obtain ⟨w, rest, rfl, hl, hw⟩ := exists_setForm hfound
        exact ⟨w, rest, rfl, hl, .set hw⟩
      next => exact hcode h

theorem mem_of_isSyntaxChar (h : isSyntaxChar c) : c ∈ ['^', '$', '.', '|', ')', '(', '[',
    '*', '+', '?', '\x7b', ']', '\x7d', '\\'] := by
  have hall : ∀ c ∈ "^$\\.*+?()[]\x7b\x7d|".toList, c ∈ ['^', '$', '.', '|', ')', '(', '[',
      '*', '+', '?', '\x7b', ']', '\x7d', '\\'] := List.all_iff_forall_prop.1 (by decide)
  exact hall c (List.contains_iff_mem.1 h)

/-- **A token outside classes has one of the forms.** -/
theorem exists_plainForm (hx : x.isStrict) (hn : x.named) (h : plainToken? x c cs = some (t, k)) :
    ∃ w rest, cs = w ++ rest ∧ w.length = k ∧ PlainForm x.grammar x.extended (c :: w) rest t := by
  have hquantifier : ∀ {w rest : List Char} {min : Nat} {max : Option Nat}, SignForm (c :: w) min max →
      quantifier min max w.length (w ++ rest) = some (t, k) →
      ∃ v tail, w ++ rest = v ++ tail ∧ v.length = k ∧
        PlainForm x.grammar x.extended (c :: v) tail t := by
    intro w rest min max hs h
    unfold quantifier at h
    split at h
    next => cases h
    next hb =>
      rw [List.drop_left] at h
      rw [Bool.not_eq_true] at hb
      split at h
      next tail =>
        cases h
        exact ⟨w ++ ['?'], tail, by simp, by simp, .lazy hs hb⟩
      next hr =>
        cases h
        refine ⟨w, rest, rfl, rfl, .greedy hs hb fun hhead => ?_⟩
        obtain ⟨tail, rfl⟩ := List.head?_eq_some_iff.1 hhead
        exact hr tail rfl
  unfold plainToken? at h
  split at h
  iterate 5
    · cases h
      exact ⟨[], cs, rfl, rfl, .mark (by simp [plainMarks])⟩
  · obtain ⟨⟨o, taken⟩, ho, heq⟩ := Option.map_eq_some_iff.1 h
    cases heq
    obtain ⟨w, rest, rfl, hl, hw⟩ := exists_openerForm ho
    exact ⟨w, rest, rfl, hl, .opener hw⟩
  · split at h
    next hr =>
      cases h
      obtain ⟨rest, rfl⟩ := List.head?_eq_some_iff.1 (beq_iff_eq.1 hr)
      exact ⟨['^'], rest, rfl, rfl, .negatedOpen⟩
    next hr =>
      cases h
      exact ⟨[], cs, rfl, rfl, .classOpen (by simpa using hr)⟩
  · exact hquantifier (w := []) .star h
  · exact hquantifier (w := []) .plus h
  · exact hquantifier (w := []) .optional h
  · split at h
    next min max taken hbounds =>
      obtain ⟨w, rest, rfl, rfl, hw⟩ := exists_signForm hbounds
      exact hquantifier hw h
    next =>
      rw [if_pos hx] at h
      cases h
  · rw [if_pos hx] at h
    cases h
  · rw [if_pos hx] at h
    cases h
  · exact exists_plainForm_escape hx hn h
  · cases h
    refine ⟨[], cs, rfl, rfl, .char ?_⟩
    rw [← Bool.not_eq_true]
    intro hc
    have hmem := mem_of_isSyntaxChar hc
    simp only [List.mem_cons, List.not_mem_nil, or_false] at hmem
    rcases hmem with rfl | rfl | rfl | rfl | rfl | rfl | rfl | rfl | rfl | rfl | rfl | rfl | rfl | rfl <;>
      contradiction

/-- **A token outside classes is read again before a text that begins in the same way,** whether
atomic groups are admitted or not. -/
theorem PlainForm.follow (h : PlainForm g extended w rest t) (hs : SameStart rest rest')
    (ht : t ≠ .groupOpen .atomic) (extended' : Bool) : PlainForm g extended' w rest' t := by
  cases h with
  | mark h => exact .mark h
  | char h => exact .char h
  | opener h => exact .opener ((h.follow hs).inDialect (fun ho => ht (congrArg Token.groupOpen ho)) _)
  | classOpen h => exact .classOpen (hs.head ▸ h)
  | negatedOpen => exact .negatedOpen
  | greedy h hb hr => exact .greedy h hb (hs.head ▸ hr)
  | lazy h hb => exact .lazy h hb
  | edge h => exact .edge h
  | numbered hz hds hr => exact .numbered hz hds (hs.head ▸ hr)
  | named h => exact .named h
  | set h => exact .set h
  | code h => exact .code (h.follow hs)

/-! ## Tokens inside classes -/

/-- How the characters `w` write a token inside a class, when `rest` comes after them. -/
inductive ClassForm (g : Grammar) : (w rest : List Char) → (t : Token) → Prop where
  | close {rest : List Char} : ClassForm g [']'] rest .classClose
  | hyphen {rest : List Char} (h : g = .sets → rest.head? ≠ some '-') :
    ClassForm g ['-'] rest .hyphen
  | char {c : Char} {rest : List Char} (hg : g ≠ .sets) (h : c ∉ [']', '\\', '-']) :
    ClassForm g [c] rest (.code c.toNat)
  | single {c : Char} {rest : List Char} (hg : g = .sets) (h : isSetSyntaxChar c = false)
    (hd : (isReservedDouble c && rest.head? == some c) = false) :
    ClassForm g [c] rest (.code c.toNat)
  | classOpen {rest : List Char} (hg : g = .sets) (h : rest.head? ≠ some '^') :
    ClassForm g ['['] rest (.classOpen false)
  | negatedOpen {rest : List Char} (hg : g = .sets) : ClassForm g ['[', '^'] rest (.classOpen true)
  | difference {rest : List Char} (hg : g = .sets) : ClassForm g ['-', '-'] rest .difference
  | intersection {rest : List Char} (hg : g = .sets) (h : rest.head? ≠ some '&') :
    ClassForm g ['&', '&'] rest .intersection
  | set {w rest : List Char} {s : CharSet} (h : SetForm g w s) : ClassForm g ('\\' :: w) rest (.set s)
  | texts {v rest : List Char} {ts : List Unicode.CodeText} (hg : g = .sets)
    (h : TextsForm g [] v ts) :
    ClassForm g ('\\' :: 'q' :: '\x7b' :: (v ++ ['\x7d'])) rest (.set (.texts ts))
  | code {w rest : List Char} {n : Nat} (h : CodeForm g true w rest n) :
    ClassForm g ('\\' :: w) rest (.code n)

theorem setEscape?_q (g : Grammar) (cs : List Char) : setEscape? g ('q' :: cs) = none := by
  simp [setEscape?]

theorem classEscape?_set {s : CharSet} (h : setEscape? x.grammar cs = some (some (s, k))) :
    classEscape? x cs = some (.set s, k) := by
  unfold classEscape?
  rw [h]
  rfl

theorem classEscape?_texts (hg : x.grammar = .sets) {ts : List Unicode.CodeText}
    (h : classTexts? x [] cs = some (ts, k)) :
    classEscape? x ('q' :: '\x7b' :: cs) = some (.set (.texts ts), k + 2) := by
  unfold classEscape?
  rw [setEscape?_q, hg]
  show (classTexts? x [] cs).map _ = _
  rw [h]
  rfl

theorem classEscape?_code (h : setEscape? x.grammar cs = none) (hq : cs.head? ≠ some 'q') :
    classEscape? x cs = codeToken? x true cs := by
  unfold classEscape?
  rw [h]
  dsimp only
  split
  next => exact absurd rfl hq
  next => rfl

theorem ClassForm.classToken?_eq (hx : x.isStrict) (h : ClassForm x.grammar w rest t) :
    ∃ c cs, w = c :: cs ∧ classToken? x c (cs ++ rest) = some (t, cs.length) := by
  cases h with
  | close => exact ⟨_, _, rfl, rfl⟩
  | hyphen h =>
    refine ⟨_, _, rfl, ?_⟩
    rw [classToken?, if_neg (by decide), if_neg (by decide)]
    by_cases hg : x.grammar = .sets
    · rw [if_neg (by simp [hg]), if_neg (by decide), if_pos rfl, List.nil_append,
        if_neg (by simpa using h hg)]
      rfl
    · rw [if_pos (by simpa using hg), if_pos rfl]
      rfl
  | @char c _ hg h =>
    refine ⟨_, _, rfl, ?_⟩
    simp only [List.mem_cons, List.not_mem_nil, or_false, not_or] at h
    rw [classToken?, if_neg h.1, if_neg h.2.1, if_pos (by simpa using hg), if_neg h.2.2]
    rfl
  | @single c _ hg h hd =>
    refine ⟨_, _, rfl, ?_⟩
    have hplain : c ≠ ']' ∧ c ≠ '\\' ∧ c ≠ '[' ∧ c ≠ '-' := by
      refine ⟨?_, ?_, ?_, ?_⟩ <;> rintro rfl <;> exact absurd h (by decide)
    have hamp : ¬ (c = '&' && rest.head? == some '&') = true := by
      rw [Bool.and_eq_true, decide_eq_true_eq]
      rintro ⟨rfl, hamp⟩
      rw [hamp] at hd
      exact absurd hd (by decide)
    rw [classToken?, if_neg hplain.1, if_neg hplain.2.1, if_neg (by simp [hg]), if_neg hplain.2.2.1,
      if_neg hplain.2.2.2, List.nil_append, if_neg hamp, h, hd, if_neg (by decide)]
    rfl
  | classOpen hg h =>
    refine ⟨_, _, rfl, ?_⟩
    rw [classToken?, if_neg (by decide), if_neg (by decide), if_neg (by simp [hg]), if_pos rfl,
      List.nil_append, if_neg (by simpa using h)]
    rfl
  | negatedOpen hg =>
    refine ⟨_, _, rfl, ?_⟩
    rw [classToken?, if_neg (by decide), if_neg (by decide), if_neg (by simp [hg]), if_pos rfl,
      if_pos (by simp)]
    rfl
  | difference hg =>
    refine ⟨_, _, rfl, ?_⟩
    rw [classToken?, if_neg (by decide), if_neg (by decide), if_neg (by simp [hg]),
      if_neg (by decide), if_pos rfl, if_pos (by simp)]
    rfl
  | intersection hg h =>
    refine ⟨_, _, rfl, ?_⟩
    rw [classToken?, if_neg (by decide), if_neg (by decide), if_neg (by simp [hg]),
      if_neg (by decide), if_neg (by decide), if_pos (by simp)]
    rw [List.singleton_append, List.tail_cons, if_neg (by simpa using h)]
    rfl
  | @set w _ s h =>
    refine ⟨_, _, rfl, ?_⟩
    rw [classToken?, if_neg (by decide), if_pos rfl, classEscape?_set (h.setEscape?_eq hx rest)]
  | @texts v _ ts hg h =>
    refine ⟨_, _, rfl, ?_⟩
    rw [classToken?, if_neg (by decide), if_pos rfl, List.cons_append, List.cons_append,
      List.append_assoc, List.singleton_append, classEscape?_texts hg (h.classTexts?_eq hx rest)]
    simp
  | @code w _ n h =>
    refine ⟨_, _, rfl, ?_⟩
    have hq : (w ++ rest).head? ≠ some 'q' := by
      obtain ⟨c, cs, rfl, hc, -⟩ := h.exists_cons
      intro hhead
      cases hhead
      exact absurd hc (by decide)
    rw [classToken?, if_neg (by decide), if_pos rfl, classEscape?_code h.setEscape?_eq_none hq,
      codeToken?, h.codeEscape?_eq hx]

/-- **A token inside a class has one of the forms.** -/
theorem exists_classForm (hx : x.isStrict) (h : classToken? x c cs = some (t, k)) :
    ∃ w rest, cs = w ++ rest ∧ w.length = k ∧ ClassForm x.grammar (c :: w) rest t := by
  unfold classToken? at h
  by_cases hclose : c = ']'
  · rw [if_pos hclose] at h
    cases h
    subst hclose
    exact ⟨[], cs, rfl, rfl, .close⟩
  rw [if_neg hclose] at h
  by_cases hescape : c = '\\'
  · subst hescape
    rw [if_pos rfl] at h
    unfold classEscape? at h
    split at h
    next found hfound =>
      obtain ⟨⟨s, taken⟩, rfl, heq⟩ := Option.map_eq_some_iff.1 h
      cases heq
      obtain ⟨w, rest, rfl, hl, hw⟩ := exists_setForm hfound
      exact ⟨w, rest, rfl, hl, .set hw⟩
    next =>
      split at h
      next rest hg _ =>
        obtain ⟨⟨ts, taken⟩, hts, heq⟩ := Option.map_eq_some_iff.1 h
        cases heq
        obtain ⟨v, tail, rfl, hl, hv⟩ := exists_textsForm hx hts
        exact ⟨'q' :: '\x7b' :: (v ++ ['\x7d']), tail, by simp, by simp [hl], .texts hg hv⟩
      next =>
        obtain ⟨w, rest, n, rfl, hl, rfl, hw⟩ := exists_codeForm_of_codeToken? hx h
        exact ⟨w, rest, rfl, hl, .code hw⟩
  rw [if_neg hescape] at h
  by_cases hg : x.grammar = .sets
  · rw [if_neg (by simp [hg])] at h
    split at h
    next hopen =>
      subst hopen
      split at h
      next hr =>
        cases h
        obtain ⟨rest, rfl⟩ := List.head?_eq_some_iff.1 (beq_iff_eq.1 hr)
        exact ⟨['^'], rest, rfl, rfl, .negatedOpen hg⟩
      next hr =>
        cases h
        exact ⟨[], cs, rfl, rfl, .classOpen hg (by simpa using hr)⟩
    next =>
      split at h
      next hhyphen =>
        subst hhyphen
        split at h
        next hr =>
          cases h
          obtain ⟨rest, rfl⟩ := List.head?_eq_some_iff.1 (beq_iff_eq.1 hr)
          exact ⟨['-'], rest, rfl, rfl, .difference hg⟩
        next hr =>
          cases h
          exact ⟨[], cs, rfl, rfl, .hyphen fun _ => by simpa using hr⟩
      next =>
        split at h
        next hamp =>
          simp only [Bool.and_eq_true, decide_eq_true_eq, beq_iff_eq] at hamp
          obtain ⟨rfl, hhead⟩ := hamp
          obtain ⟨rest, rfl⟩ := List.head?_eq_some_iff.1 hhead
          split at h
          next => cases h
          next hr =>
            cases h
            exact ⟨['&'], rest, rfl, rfl, .intersection hg (by simpa using hr)⟩
        next =>
          split at h
          next => cases h
          next hplain =>
            cases h
            rw [Bool.not_eq_true, Bool.or_eq_false_iff] at hplain
            exact ⟨[], cs, rfl, rfl, .single hg hplain.1 hplain.2⟩
  · rw [if_pos (by simpa using hg)] at h
    split at h
    next hhyphen =>
      cases h
      subst hhyphen
      exact ⟨[], cs, rfl, rfl, .hyphen fun hs => absurd hs hg⟩
    next hhyphen =>
      cases h
      exact ⟨[], cs, rfl, rfl, .char hg (by simp [hclose, hescape, hhyphen])⟩

/-- **A token inside a class is read again before a text that begins in the same way.** -/
theorem ClassForm.follow (h : ClassForm g w rest t) (hs : SameStart rest rest') :
    ClassForm g w rest' t := by
  cases h with
  | close => exact .close
  | hyphen h => exact .hyphen fun hg => hs.head ▸ h hg
  | char hg h => exact .char hg h
  | single hg h hd => exact .single hg h (hs.head ▸ hd)
  | classOpen hg h => exact .classOpen hg (hs.head ▸ h)
  | negatedOpen hg => exact .negatedOpen hg
  | difference hg => exact .difference hg
  | intersection hg h => exact .intersection hg (hs.head ▸ h)
  | set h => exact .set h
  | texts hg h => exact .texts hg h
  | code h => exact .code (h.follow hs)

/-! ## Tokens in a context -/

/-- Whether a token neither opens nor closes a group nor refers to a capture by its number. -/
def Token.isOrdinary : Token → Bool
  | groupOpen _ | groupClose | numbered _ => false
  | _ => true

/-- Whether a token repeats what stands before it. -/
def Token.isQuantifier : Token → Bool
  | quantifier _ _ _ => true
  | _ => false

/-- Whether no quantifier can stand directly behind a token. -/
def Token.barsQuantifier : Token → Bool
  | groupOpen _ | quantifier _ _ _ => true
  | _ => false

/-- The second token may stand directly behind the first. -/
def Token.Precedes (t u : Token) : Prop :=
  t.barsQuantifier → u.isQuantifier = false

/-- The dialect reads a strict grammar, and names always refer. -/
structure Dialect.Suits (x : Dialect) (g : Grammar) : Prop where
  grammar : x.grammar = g
  strict : x.isStrict
  named : x.named

theorem PlainForm.lexesBefore (hx : x.Suits g) (h : PlainForm g x.extended w rest t) :
    LexesBefore x 0 (t.classDepth 0) w [t] rest := by
  rw [← hx.grammar] at h
  obtain ⟨c, cs, rfl, ht⟩ := h.plainToken?_eq hx.strict hx.named
  exact .token ht

theorem ClassForm.lexesBefore (hx : x.Suits g) (h : ClassForm g w rest t) (depth : Nat) :
    LexesBefore x (depth + 1) (t.classDepth (depth + 1)) w [t] rest := by
  rw [← hx.grammar] at h
  obtain ⟨c, cs, rfl, ht⟩ := h.classToken?_eq hx.strict
  exact .token ht

/-- A plus sign or a question mark begins a quantifier. -/
theorem isQuantifier_of_sign (hc : c = '+' ∨ c = '?') {ts : List Token}
    (h : tokensFrom? x 0 (c :: cs) = some ts) : ∃ t later, ts = t :: later ∧ t.isQuantifier := by
  have hquantifier : ∀ {min : Nat} {max : Option Nat} {t : Token} {k : Nat},
      quantifier min max 0 cs = some (t, k) → t.isQuantifier := by
    intro min max t k h
    unfold quantifier at h
    split at h
    · cases h
    · split at h <;> cases h <;> rfl
  rw [tokensFrom?_cons] at h
  obtain ⟨⟨t, taken⟩, ht, h⟩ := Option.bind_eq_some_iff.1 h
  obtain ⟨later, -, rfl⟩ := Option.map_eq_some_iff.1 h
  refine ⟨t, later, rfl, ?_⟩
  rcases hc with rfl | rfl
  · exact hquantifier (show quantifier 1 none 0 cs = some (t, taken) from ht)
  · exact hquantifier (show quantifier 0 (some 1) 0 cs = some (t, taken) from ht)

end Diglot.Host
