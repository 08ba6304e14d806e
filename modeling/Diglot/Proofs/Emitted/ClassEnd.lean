import Diglot.Proofs.Emitted.ClassMeaning
import Diglot.Proofs.Host.Forms

/-!
# Where classes end

The scanner takes a class for one token and looks only for its end: it counts the brackets that are
not escaped. The host reads every part of the class. In a pattern that the host reads, a class that
the scanner gets to the end of is the one that the host sees (`endsAt_of_classLength`): where the
scanner counts a bracket that the host does not, it finds no end at all (`classLength_of_deeper`). It
counts none such if as many brackets open as close (`exists_classLength`).
-/

namespace Diglot.Emitted

open Host Text Unicode

variable {w rest v name cs : List Char} {n depth deep m : Nat} {g : Grammar} {s : CharSet}
  {extended : Bool} {t : Host.Token} {x : Dialect} {ts later : List Host.Token}

/-! ## Texts to be passed over -/

/-- Digits are no brackets. -/
theorem passes_digits {radix : Nat} (hr : radix ∈ [10, 16]) {ds : List Char}
    (h : ∀ c ∈ ds, isDigit radix c) : Passes ds := by
  have hall : ∀ radix ∈ [10, 16], ['[', ']', '\\'].all (!isDigit radix ·) := by decide
  refine passes_plain fun c hc hmem => ne_of_isDigit (h c hc) ?_ rfl
  simpa using List.all_eq_true.1 (hall radix hr) c hmem

theorem passes_of_unicodeForm (h : UnicodeForm w rest n) : Passes w := by
  cases h with
  | braced h =>
    have hds := passes_digits (by decide) (digits_of_number? h).2
    exact (passes_char (by decide)).append (hds.append (passes_char (by decide)))
  | unit hl h hp => exact passes_digits (by decide) (digits_of_number? h).2
  | pair hl h hl' hes hp =>
    exact (passes_digits (by decide) (digits_of_number? h).2).append
      ((passes_escape 'u').append (passes_digits (by decide) hes))

theorem passes_of_codeForm {inClass : Bool} (h : CodeForm g inClass w rest n) :
    Passes ('\\' :: w) := by
  cases h with
  | letter | backspace | zero | itself => exact passes_escape _
  | @control c _ h =>
    refine (passes_escape 'c').append (passes_char ?_)
    simp only [List.mem_cons, List.not_mem_nil, or_false]
    rintro (rfl | rfl | rfl) <;> exact absurd h (by decide)
  | hex hl h => exact (passes_escape 'x').append (passes_digits (by decide) (digits_of_number? h).2)
  | unicode h => exact (passes_escape 'u').append (passes_of_unicodeForm h)

/-- No set that the host knows has brackets in its name. -/
theorem unbracketed_of_propertySet? {negated : Bool} {text : List Char}
    (h : propertySet? g negated text = some s) : Unbracketed text := by
  unfold propertySet? at h
  split at h
  next p hp => exact unbracketed_of_ofText? hp
  next =>
    split at h
    next =>
      obtain ⟨texts, htexts, -⟩ := Option.map_eq_some_iff.1 h
      have hname : plainText (String.ofList text) := by
        unfold Emoji.ofName? at htexts
        split at htexts
        iterate 7 next heq => rw [heq]; decide
        cases htexts
      exact unbracketed_of_all (by simpa [plainText] using hname)
    next => cases h

theorem passes_of_setForm (h : SetForm g w s) : Passes ('\\' :: w) := by
  cases h with
  | letter => exact passes_escape _
  | @property c text _ hc hb h =>
    have htext : ∀ d ∈ text, d ≠ '[' ∧ d ≠ ']' := by
      intro d hd
      have hplain := unbracketed_of_propertySet? h d hd
      simp only [brackets, List.mem_cons, List.not_mem_nil, or_false, not_or] at hplain
      exact ⟨hplain.1, hplain.2.1⟩
    exact (passes_escape c).append ((passes_char (by decide)).append (passes_braced text htext))

theorem passes_of_nameForm (h : NameForm v name) (hname : name.all continuesName) : Passes v := by
  have hnone : (['[', ']', '\\'].all fun c => !continuesName c) = true := by decide +kernel
  induction h with
  | nil => exact passes_nil
  | escape h hc hv ih =>
    rw [List.all_cons, Bool.and_eq_true] at hname
    exact (passes_escape 'u').append ((passes_of_unicodeForm h).append (ih hname.2))
  | @char c v name hc hu hv ih =>
    rw [List.all_cons, Bool.and_eq_true] at hname
    refine (passes_char fun hmem => ?_).append (ih hname.2)
    have hnot := List.all_eq_true.1 hnone c hmem
    rw [hname.1] at hnot
    cases hnot

theorem passes_of_textsForm {before : CodeText} {texts : List CodeText}
    (h : TextsForm g before v texts) : Passes v := by
  induction h with
  | nil => exact passes_nil
  | bar h ih => exact (passes_char (by decide)).append ih
  | escape hw h ih => exact (passes_of_codeForm hw).append ih
  | @char before c v texts hc hd h ih =>
    refine (passes_char ?_).append ih
    simp only [List.mem_cons, List.not_mem_nil, or_false]
    rintro (rfl | rfl | rfl) <;> exact absurd hc (by decide)

theorem passes_of_signForm {min : Nat} {max : Option Nat} (h : SignForm w min max) : Passes w := by
  cases h with
  | star | plus | optional => exact passes_char (by decide)
  | exactly hne hds =>
    exact (passes_char (by decide)).append
      ((passes_digits (by decide) hds).append (passes_char (by decide)))
  | atLeast hne hds =>
    exact (passes_char (by decide)).append
      ((passes_digits (by decide) hds).append
        (passes_plain (List.all_iff_forall_prop.1 (by decide))))
  | between hne hds hne' hes =>
    exact (passes_char (by decide)).append ((passes_digits (by decide) hds).append
      ((passes_char (by decide)).append
        ((passes_digits (by decide) hes).append (passes_char (by decide)))))

theorem passes_of_groupNameForm (h : GroupNameForm v name) : Passes (v ++ ['>']) :=
  (passes_of_nameForm h.chars h.continues).append (passes_char (by decide))

theorem passes_of_openerForm {o : Opener} (h : OpenerForm extended w rest o) : Passes w := by
  cases h with
  | plain | atomic => exact passes_plain (List.all_iff_forall_prop.1 (by decide))
  | @look w _ _ h =>
    have hall : ∀ p ∈ lookMarks, p.1.all (· ∉ ['[', ']', '\\']) := by decide
    exact passes_plain (List.all_iff_forall_prop.1 (hall _ h))
  | named h =>
    exact (passes_char (by decide)).append
      ((passes_char (by decide)).append (passes_of_groupNameForm h))
  | modified h =>
    have hall : ∀ c ∈ ['i', 'm', 's', '-'], c ∉ ['[', ']', '\\'] :=
      List.all_iff_forall_prop.1 (by decide)
    exact (passes_char (by decide)).append
      ((passes_plain fun c hc => hall c (h.letters c hc)).append (passes_char (by decide)))
  | capture => exact passes_nil

/-! ## Tokens inside brackets -/

/-- What a token with the text `w` that stands inside `depth` classes means to the scanner, if it is
inside a class. -/
inductive BracketStep (g : Grammar) (depth : Nat) (t : Host.Token) : (w : List Char) → Prop where
  | pass {w : List Char} (hw : Passes w) (hd : t.classDepth depth = depth) : BracketStep g depth t w
  | opens {w : List Char} (hw : Passes w) (hd : t.classDepth depth = depth + 1) :
    BracketStep g depth t ('[' :: w)
  | closes (ht : t = .classClose) (hd : t.classDepth depth + 1 = depth) : BracketStep g depth t [']']
  /-- A bracket that opens no class: only the scanner counts it. -/
  | stray (hg : g ≠ .sets) (hin : 0 < depth) (hd : t.classDepth depth = depth) :
    BracketStep g depth t ['[']

theorem bracketStep_of_plainForm (h : PlainForm g extended w rest t) (depth : Nat) :
    BracketStep g depth t w := by
  cases h with
  | mark h =>
    simp only [plainMarks, List.mem_cons, Prod.mk.injEq, List.not_mem_nil, or_false] at h
    rcases h with ⟨rfl, rfl⟩ | ⟨rfl, rfl⟩ | ⟨rfl, rfl⟩ | ⟨rfl, rfl⟩ | ⟨rfl, rfl⟩ <;>
      exact .pass (passes_char (by decide)) rfl
  | @char c _ h =>
    refine .pass (passes_char ?_) rfl
    simp only [List.mem_cons, List.not_mem_nil, or_false]
    rintro (rfl | rfl | rfl) <;> exact absurd h (by decide)
  | opener h => exact .pass ((passes_char (by decide)).append (passes_of_openerForm h)) rfl
  | classOpen => exact .opens passes_nil rfl
  | negatedOpen => exact .opens (passes_char (by decide)) rfl
  | greedy h => exact .pass (passes_of_signForm h) rfl
  | lazy h => exact .pass ((passes_of_signForm h).append (passes_char (by decide))) rfl
  | edge => exact .pass (passes_escape _) rfl
  | @numbered ds _ hz hds =>
    refine .pass ?_ rfl
    cases ds with
    | nil => cases hz
    | cons d ds =>
      have hlater : ∀ c ∈ ds, isDigit 10 c := fun c hc => hds c (List.mem_cons_of_mem _ hc)
      exact (passes_escape d).append (passes_digits (by decide) hlater)
  | named h =>
    exact .pass ((passes_escape 'k').append
      ((passes_char (by decide)).append (passes_of_groupNameForm h))) rfl
  | set h => exact .pass (passes_of_setForm h) rfl
  | code h => exact .pass (passes_of_codeForm h) rfl

theorem bracketStep_of_classForm (h : ClassForm g w rest t) (depth : Nat) :
    BracketStep g (depth + 1) t w := by
  cases h with
  | close => exact .closes rfl rfl
  | hyphen => exact .pass (passes_char (by decide)) rfl
  | @char c _ hg h =>
    by_cases hc : c = '['
    · subst hc
      exact .stray hg (Nat.succ_pos depth) rfl
    · exact .pass (passes_char (by simp_all)) rfl
  | @single c _ hg h hd =>
    refine .pass (passes_char ?_) rfl
    simp only [List.mem_cons, List.not_mem_nil, or_false]
    rintro (rfl | rfl | rfl) <;> exact absurd h (by decide)
  | classOpen => exact .opens passes_nil rfl
  | negatedOpen => exact .opens (passes_char (by decide)) rfl
  | difference | intersection =>
    exact .pass (passes_plain (List.all_iff_forall_prop.1 (by decide))) rfl
  | set h => exact .pass (passes_of_setForm h) rfl
  | texts hg h =>
    exact .pass ((passes_escape 'q').append ((passes_char (by decide)).append
      ((passes_of_textsForm h).append (passes_char (by decide))))) rfl
  | code h => exact .pass (passes_of_codeForm h) rfl

/-- What a token means to the scanner inside a class, whatever it is to the host. -/
theorem exists_bracketStep (hx : x.Suits g) {c : Char} {k : Nat}
    (h : token? x depth c cs = some (t, k)) :
    ∃ w rest, cs = w ++ rest ∧ w.length = k ∧ BracketStep g depth t (c :: w) := by
  rw [← hx.grammar]
  unfold token? at h
  cases depth with
  | zero =>
    obtain ⟨w, rest, hcs, hl, hw⟩ := exists_plainForm hx.strict hx.named h
    exact ⟨w, rest, hcs, hl, bracketStep_of_plainForm hw 0⟩
  | succ depth =>
    obtain ⟨w, rest, hcs, hl, hw⟩ := exists_classForm hx.strict h
    exact ⟨w, rest, hcs, hl, bracketStep_of_classForm hw depth⟩

/-! ## The end of a class -/

theorem classLength_open (deep n : Nat) (cs : List Char) :
    classLength deep n ('[' :: cs) = classLength (deep + 1) (n + 1) cs := by
  rw [classLength]

/-- What holds at the end of a pattern, and before a token if it holds behind it, holds wherever the
host can read on. -/
theorem brackets_induction (hx : x.Suits g) {motive : Nat → List Char → List Host.Token → Prop}
    (nil : ∀ depth, motive depth [] [])
    (step : ∀ {depth : Nat} {t : Host.Token} {v rest : List Char} {later : List Host.Token},
      BracketStep g depth t v → motive (t.classDepth depth) rest later →
      motive depth (v ++ rest) (t :: later))
    (h : tokensFrom? x depth cs = some ts) : motive depth cs ts := by
  induction hlength : cs.length using Nat.strongRecOn generalizing depth cs ts with
  | ind length ih =>
    cases cs with
    | nil =>
      rw [tokensFrom?_nil] at h
      cases h
      exact nil depth
    | cons c cs =>
      rw [tokensFrom?_cons] at h
      obtain ⟨⟨t, taken⟩, ht, h⟩ := Option.bind_eq_some_iff.1 h
      obtain ⟨later, hlater, rfl⟩ := Option.map_eq_some_iff.1 h
      obtain ⟨w, rest, rfl, rfl, hstep⟩ := exists_bracketStep hx ht
      rw [List.drop_left] at hlater
      have hshort : rest.length < length := by
        rw [← hlength, List.length_cons, List.length_append]
        omega
      exact step hstep (ih _ hshort hlater rfl)

/-- **If the scanner is inside more classes than the host, it never gets out of them.** -/
theorem classLength_of_deeper (hx : x.Suits g) (h : tokensFrom? x depth cs = some ts) :
    ∀ deep n, depth ≤ deep → ∃ fault, classLength deep n cs = .error fault := by
  refine brackets_induction hx (motive := fun depth cs _ => ∀ deep n, depth ≤ deep →
    ∃ fault, classLength deep n cs = .error fault) ?_ ?_ h
  · intro depth deep n _
    exact ⟨_, by rw [classLength]⟩
  · intro depth t v rest _ hstep ih deep n hd
    cases hstep with
    | pass hw hdepth =>
      rw [hw.length]
      exact ih _ _ (by omega)
    | opens hw hdepth =>
      rw [List.cons_append, classLength_open, hw.length]
      exact ih _ _ (by omega)
    | closes ht hdepth =>
      obtain ⟨deep, rfl⟩ : ∃ d, deep = d + 1 := ⟨deep - 1, by omega⟩
      rw [List.singleton_append, classLength]
      exact ih _ _ (by omega)
    | stray hg hin hdepth =>
      rw [List.singleton_append, classLength_open]
      exact ih _ _ (by omega)

theorem bracketExcess_open (cs : List Char) : bracketExcess ('[' :: cs) = bracketExcess cs + 1 := by
  rw [bracketExcess]

theorem bracketExcess_close (cs : List Char) : bracketExcess (']' :: cs) = bracketExcess cs - 1 := by
  rw [bracketExcess]

/-- **If no bracket is left over, the scanner gets out of the class that the host is in.** At least
the classes that are open at the end have brackets left over, and in the grammar with sets nothing
else has. -/
theorem exists_classLength (hx : x.Suits g) (h : tokensFrom? x depth cs = some ts) :
    ts.foldl Token.classDepth depth ≤ bracketExcess cs + depth ∧
      (g = .sets → bracketExcess cs + depth = ts.foldl Token.classDepth depth) ∧
      ∀ deep n, depth = deep + 1 → bracketExcess cs + depth = 0 →
        ∃ m, classLength deep n cs = .ok m := by
  refine brackets_induction hx (motive := fun depth cs ts =>
    ts.foldl Token.classDepth depth ≤ bracketExcess cs + depth ∧
      (g = .sets → bracketExcess cs + depth = ts.foldl Token.classDepth depth) ∧
      ∀ deep n, depth = deep + 1 → bracketExcess cs + depth = 0 →
        ∃ m, classLength deep n cs = .ok m) ?_ ?_ h
  · intro depth
    rw [bracketExcess, List.foldl_nil]
    exact ⟨by omega, fun _ => by omega, fun deep n hd hzero => by omega⟩
  · rintro depth t v rest later hstep ⟨hle, hsets, hends⟩
    rw [List.foldl_cons]
    cases hstep with
    | pass hw hdepth =>
      rw [hdepth] at hle hsets hends ⊢
      rw [hw.excess]
      refine ⟨hle, hsets, fun deep n hd hzero => ?_⟩
      rw [hw.length]
      exact hends deep _ hd hzero
    | opens hw hdepth =>
      rw [List.cons_append, bracketExcess_open, hw.excess]
      refine ⟨by omega, fun hg => by have := hsets hg; omega, fun deep n hd hzero => ?_⟩
      rw [classLength_open, hw.length]
      exact hends (deep + 1) _ (by omega) (by omega)
    | closes ht hdepth =>
      rw [List.singleton_append, bracketExcess_close]
      refine ⟨by omega, fun hg => by have := hsets hg; omega, fun deep n hd hzero => ?_⟩
      cases deep with
      | zero => exact ⟨_, by rw [classLength]⟩
      | succ deep =>
        rw [classLength]
        exact hends deep _ (by omega) (by omega)
    | stray hg hin hdepth =>
      rw [List.singleton_append, bracketExcess_open]
      exact ⟨by omega, fun hg' => absurd hg' hg, fun deep n hd hzero => by omega⟩

/-- The token has its place inside brackets. -/
theorem isOrdinary_of_classForm (h : ClassForm g w rest t) : t.isOrdinary := by
  cases h <;> rfl

/-- The class that `cs` is inside of, with `deep` more around it, ends after `m - n` characters. The
host reads what is in it in the same way whatever follows, and goes on behind it outside classes. -/
def EndsAt (x : Dialect) (g : Grammar) (deep n m : Nat) (cs : List Char) (ts : List Host.Token) :
    Prop :=
  ∃ w rest front later, cs = w ++ ']' :: rest ∧ m = n + w.length + 1 ∧ ts = front ++ later ∧
    tokensFrom? x 0 rest = some later ∧ (∀ t ∈ front, t.isOrdinary) ∧
    bracketExcess cs + deep + 1 = bracketExcess rest ∧
    ∀ y : Dialect, y.Suits g → ∀ tail, LexesBefore y (deep + 1) 0 (w ++ [']']) front tail

theorem endsAt_close (h : tokensFrom? x 0 rest = some later) :
    EndsAt x g 0 n (n + 1) (']' :: rest) (.classClose :: later) := by
  refine ⟨[], rest, [.classClose], later, rfl, rfl, rfl, h, by simp [Host.Token.isOrdinary], ?_,
    fun y hy tail => ?_⟩
  · rw [bracketExcess_close]
    omega
  · exact ClassForm.close.lexesBefore hy 0

/-- A token behind which the class goes on. -/
theorem EndsAt.cons {deep' : Nat} (h : EndsAt x g deep' (n + v.length) m rest later)
    (hv : ClassForm g v rest t) (hdepth : t.classDepth (deep + 1) = deep' + 1)
    (he : bracketExcess (v ++ rest) + deep = bracketExcess rest + deep') :
    EndsAt x g deep n m (v ++ rest) (t :: later) := by
  obtain ⟨w, tail, front, later, rfl, hw, rfl, htail, hordinary, hexcess, hlexes⟩ := h
  refine ⟨v ++ w, tail, t :: front, later, by simp, ?_, rfl, htail, ?_, by omega, ?_⟩
  · rw [hw, List.length_append]
    omega
  · exact List.forall_mem_cons.2 ⟨isOrdinary_of_classForm hv, hordinary⟩
  · intro y hy tail'
    have hstart := sameStart_closed (z := ']') (by decide) (by decide) (by decide) w tail tail'
    have hfirst := (hv.follow hstart).lexesBefore hy deep
    rw [hdepth, List.append_cons] at hfirst
    rw [List.append_assoc]
    exact hfirst.append (hlexes y hy tail')

/-- **If the scanner finds the end of a class, it is where the host leaves the class.** -/
theorem endsAt_of_classLength (hx : x.Suits g) (h : tokensFrom? x (deep + 1) cs = some ts)
    (hm : classLength deep n cs = .ok m) : EndsAt x g deep n m cs ts := by
  induction hlength : cs.length using Nat.strongRecOn generalizing deep n cs ts with
  | ind length ih =>
    cases cs with
    | nil =>
      rw [classLength] at hm
      cases hm
    | cons c cs =>
      rw [tokensFrom?_cons] at h
      obtain ⟨⟨t, taken⟩, ht, h⟩ := Option.bind_eq_some_iff.1 h
      obtain ⟨later, hlater, rfl⟩ := Option.map_eq_some_iff.1 h
      obtain ⟨v, rest, rfl, rfl, hv⟩ := exists_classForm hx.strict ht
      rw [hx.grammar] at hv
      rw [List.drop_left] at hlater
      have hshort : rest.length < length := by
        rw [← hlength, List.length_cons, List.length_append]
        omega
      have hnext : ∀ {deep' : Nat}, t.classDepth (deep + 1) = deep' + 1 →
          classLength deep' (n + (c :: v).length) rest = .ok m →
          bracketExcess (c :: v ++ rest) + deep = bracketExcess rest + deep' →
          EndsAt x g deep n m (c :: v ++ rest) (t :: later) := by
        intro deep' hdepth hm' he
        exact (ih _ hshort (hdepth ▸ hlater) hm' rfl).cons hv hdepth he
      have hstep := bracketStep_of_classForm hv deep
      rw [← List.cons_append] at hm ⊢
      generalize c :: v = u at hstep hm hnext ⊢
      cases hstep with
      | pass hw hdepth =>
        rw [hw.length] at hm
        exact hnext hdepth hm (by rw [hw.excess])
      | @opens w hw hdepth =>
        rw [List.cons_append, classLength_open, hw.length, Nat.add_assoc, Nat.add_comm 1] at hm
        refine hnext hdepth hm ?_
        rw [List.cons_append, bracketExcess_open, hw.excess]
        omega
      | closes hclose hdepth =>
        rw [List.singleton_append] at hm
        cases deep with
        | zero =>
          rw [classLength] at hm
          cases hm
          subst hclose
          exact endsAt_close hlater
        | succ deep =>
          rw [classLength] at hm
          refine hnext (Nat.succ.inj hdepth) hm ?_
          rw [List.singleton_append, bracketExcess_close]
          omega
      | stray hg hin hdepth =>
        -- The scanner is inside more classes than the host from here on.
        rw [List.singleton_append, classLength_open] at hm
        obtain ⟨fault, hfault⟩ := classLength_of_deeper hx hlater (deep + 1) (n + 1) (by omega)
        rw [hfault] at hm
        cases hm

end Diglot.Emitted
