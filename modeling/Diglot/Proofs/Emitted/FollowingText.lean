import Diglot.Proofs.Emitted.Legible

/-!
# What a token depends on

The text after a token can have a part in where the token ends: `\k` is a character, but not before
`<`, and a brace is a character unless an interval follows. No token looks past a parenthesis, a
bracket or a backslash. So if the text after a token is changed from there on, the token stays what
it is (`Token.ReadsBefore.coincide`).

There is one exception. An escape with a fixed number of digits takes what comes, and is cut short
at the end of the pattern (`Token.isTruncated`).
-/

namespace Diglot.Emitted

open Text

variable {c d closer : Char} {p : Char → Bool} {v cs ds rest body follow z : List Char} {n m : Nat}
  {k : Kind} {e : Char × Nat}

/-! ## Where no token goes on -/

/-- The characters that always begin a token. -/
def breakers : List Char := ['(', ')', '[', '\\']

/-- The text is empty or begins with a character that always begins a token. -/
def Breaks (cs : List Char) : Prop :=
  ∀ c ∈ cs.head?, c ∈ breakers

theorem breaks_nil : Breaks [] := by simp [Breaks]

theorem breaks_cons (h : c ∈ breakers) (cs : List Char) : Breaks (c :: cs) := by
  simpa [Breaks] using h

section

variable {x : List Char} (hx : Breaks x)

include hx

theorem takeWhile_append_of_breaks (hp : breakers.all (!p ·) = true) (v : List Char) :
    (v ++ x).takeWhile p = v.takeWhile p := by
  induction v with
  | nil =>
    cases x with
    | nil => rfl
    | cons c cs =>
      have hc : p c = false := by simpa using List.all_eq_true.1 hp c (hx c rfl)
      rw [List.nil_append, List.takeWhile_cons_of_neg (by simp [hc]), List.takeWhile_nil]
  | cons c v ih => rw [List.cons_append, List.takeWhile_cons, List.takeWhile_cons, ih]

theorem digitCount_append_of_breaks (v : List Char) : digitCount (v ++ x) = digitCount v := by
  rw [digitCount, takeWhile_append_of_breaks hx (by decide), digitCount]

theorem head?_append_of_breaks (hc : c ∉ breakers) :
    (v ++ x).head? = some c ↔ v.head? = some c := by
  cases v with
  | nil =>
    refine ⟨fun h => absurd (hx c h) hc, fun h => ?_⟩
    cases h
  | cons d v => rfl

theorem intervalLength?_append_of_breaks (v : List Char) :
    intervalLength? (v ++ x) = intervalLength? v := by
  have hlow : digitCount v ≤ v.length := (List.takeWhile_sublist _).length_le
  unfold intervalLength?
  rw [digitCount_append_of_breaks hx]
  dsimp only
  rw [List.drop_append_of_le_length hlow]
  split
  · rfl
  · cases hrest : v.drop (digitCount v) with
    | nil =>
      -- what breaks goes on no interval
      cases x with
      | nil => rfl
      | cons c cs =>
        have hc : c ∈ breakers := hx c rfl
        rw [List.nil_append]
        split
        next h => cases h; exact absurd hc (by decide)
        next h => cases h; exact absurd hc (by decide)
        next => rfl
    | cons c rest =>
      rw [List.cons_append]
      split
      next h => cases h; rfl
      next h =>
        cases h
        have hhigh : digitCount rest ≤ rest.length := (List.takeWhile_sublist _).length_le
        rw [digitCount_append_of_breaks hx, List.drop_append_of_le_length hhigh]
        simp only [head?_append_of_breaks hx (show '\x7d' ∉ breakers by decide)]
      next h h' =>
        split
        next heq => cases heq; exact absurd rfl (h _)
        next heq => cases heq; exact absurd rfl (h' _)
        next => rfl

end

/-- The characters of a kind at the front, if `d` comes after them. -/
theorem exists_of_head?_drop_takeWhile (h : (cs.drop (cs.takeWhile p).length).head? = some d) :
    ∃ ws rest, cs = ws ++ d :: rest ∧ cs.takeWhile p = ws ∧ ∀ c ∈ ws, p c = true := by
  refine ⟨_, (cs.drop (cs.takeWhile p).length).tail, ?_, rfl, fun c hc => ?_⟩
  · rw [← List.eq_cons_of_mem_head? h]
    exact List.prefix_iff_eq_append.1 (List.takeWhile_prefix p) |>.symm
  · exact List.all_eq_true.1 List.all_takeWhile c hc

theorem takeWhile_append_cons {ws : List Char} (hws : ∀ c ∈ ws, p c = true) (hd : p d = false)
    (rest : List Char) : (ws ++ d :: rest).takeWhile p = ws := by
  rw [List.takeWhile_append_of_pos hws, List.takeWhile_cons_of_neg (by simp [hd]), List.append_nil]

/-- An interval ends by itself. -/
theorem exists_of_intervalLength? (h : intervalLength? v = some n) :
    ∃ body rest, v = body ++ rest ∧ n = body.length ∧
      ∀ rest', intervalLength? (body ++ rest') = some n := by
  unfold intervalLength? at h
  dsimp only at h
  split at h
  · cases h
  next hzero =>
    split at h
    next rest hrest =>
      cases h
      obtain ⟨ds, rest, rfl, hds, hall⟩ := exists_of_head?_drop_takeWhile (congrArg List.head? hrest)
      have hlow : ∀ rest', digitCount (ds ++ '\x7d' :: rest') = ds.length := fun rest' => by
        rw [digitCount, takeWhile_append_cons hall (by decide)]
      rw [hlow] at hzero ⊢
      refine ⟨ds ++ ['\x7d'], rest, by simp, by simp, fun rest' => ?_⟩
      simp [intervalLength?, hlow, hzero]
    next rest hrest =>
      split at h
      next hhead =>
        cases h
        obtain ⟨ds, rest', rfl, hds, hall⟩ :=
          exists_of_head?_drop_takeWhile (congrArg List.head? hrest)
        have hlow : ∀ rest', digitCount (ds ++ ',' :: rest') = ds.length := fun rest' => by
          rw [digitCount, takeWhile_append_cons hall (by decide)]
        rw [hlow, List.drop_left] at hrest
        cases hrest
        obtain ⟨es, rest, rfl, hes, hall'⟩ := exists_of_head?_drop_takeWhile hhead
        have hhigh : ∀ rest', digitCount (es ++ '\x7d' :: rest') = es.length := fun rest' => by
          rw [digitCount, takeWhile_append_cons hall' (by decide)]
        rw [hlow] at hzero ⊢
        rw [hhigh]
        refine ⟨ds ++ ',' :: (es ++ ['\x7d']), rest, by simp, by simp; omega, fun rest' => ?_⟩
        simp [intervalLength?, hlow, hhigh, hzero]
      next => cases h
    next => cases h

theorem intervalLength?_le (h : intervalLength? v = some n) : n ≤ v.length := by
  obtain ⟨body, rest, rfl, rfl, -⟩ := exists_of_intervalLength? h
  simp

/-! ## Texts that are the same up to a break -/

/-- The second text is the same as the first up to a place where it is at its end or at a break. -/
def Coincide (x y : List Char) : Prop :=
  ∃ w x' y', x = w ++ x' ∧ y = w ++ y' ∧ Breaks y'

namespace Coincide

variable {x y : List Char}

theorem refl (x : List Char) : Coincide x x :=
  ⟨x, [], [], by simp, by simp, breaks_nil⟩

theorem of_breaks (hy : Breaks y) : Coincide x y :=
  ⟨[], x, y, rfl, rfl, hy⟩

theorem append_left (h : Coincide x y) (v : List Char) : Coincide (v ++ x) (v ++ y) := by
  obtain ⟨w, x', y', rfl, rfl, hy⟩ := h
  exact ⟨v ++ w, x', y', by simp, by simp, hy⟩

theorem head?_eq (h : Coincide x y) (hc : c ∉ breakers) (hy : y.head? = some c) :
    x.head? = some c := by
  obtain ⟨w, x', y', rfl, rfl, hbreaks⟩ := h
  cases w with
  | nil => exact absurd (hbreaks c hy) hc
  | cons d w => exact hy

/-- The character that comes next stays the same, unless it is at a break. -/
theorem forall_head? (h : Coincide x y) (hp : breakers.all (!p ·) = true)
    (hx : ∀ c ∈ x.head?, p c = false) : ∀ c ∈ y.head?, p c = false := by
  intro c hc
  by_cases hbreak : c ∈ breakers
  · simpa using List.all_eq_true.1 hp c hbreak
  · exact hx c (h.head?_eq hbreak hc)

/-- Digits that end before the text end there still. -/
theorem digitCount_eq (h : Coincide x y) (hx : digitCount (v ++ x) = v.length) :
    digitCount (v ++ y) = v.length := by
  have hall : ∀ c ∈ v, isDigit 10 c = true := by
    have htake : (v ++ x).takeWhile (isDigit 10) = v :=
      (List.prefix_of_prefix_length_le (List.takeWhile_prefix _) (List.prefix_append v x)
        (Nat.le_of_eq hx)).eq_of_length hx
    rw [← htake]
    exact fun c hc => List.all_eq_true.1 List.all_takeWhile c hc
  rw [digitCount, List.takeWhile_append_of_pos hall, List.length_append,
    Nat.add_eq_left] at hx ⊢
  have hnext : ∀ c ∈ y.head?, isDigit 10 c = false := by
    refine h.forall_head? (by decide) fun c hc => ?_
    rw [List.eq_cons_of_mem_head? hc] at hx
    by_contra hdigit
    rw [List.takeWhile_cons_of_pos (by simpa using hdigit)] at hx
    cases hx
  cases y with
  | nil => rfl
  | cons c y => rw [List.takeWhile_cons_of_neg (by simp [hnext c rfl]), List.length_nil]

/-- A sign that ends before the text has no other suffix then. -/
theorem quantifierWithSuffix_eq (h : Coincide x y)
    (hx : quantifierWithSuffix n (ds ++ x) = (k, n + ds.length)) :
    quantifierWithSuffix n (ds ++ y) = (k, n + ds.length) := by
  have hplain : ∀ {cs : List Char}, (∀ c ∈ cs.head?, (c == '+' || c == '?') = false) →
      quantifierWithSuffix n cs = (.quantifier false, n) := by
    intro cs hcs
    unfold quantifierWithSuffix
    split <;> simp_all
  cases ds with
  | cons d ds =>
    rw [← hx, List.cons_append, List.cons_append]
    unfold quantifierWithSuffix
    split <;> simp_all
  | nil =>
    have hnext : ∀ c ∈ x.head?, (c == '+' || c == '?') = false := by
      intro c hc
      rw [List.nil_append, List.eq_cons_of_mem_head? hc] at hx
      unfold quantifierWithSuffix at hx
      split at hx <;> simp_all
    rw [List.nil_append, hplain hnext] at hx
    rw [List.nil_append, hplain (h.forall_head? (by decide) hnext), hx]

/-- No interval comes about where there was none. -/
theorem intervalLength?_eq_none (h : Coincide x y) (hx : intervalLength? x = none) :
    intervalLength? y = none := by
  obtain ⟨w, x', y', rfl, rfl, hy⟩ := h
  rw [intervalLength?_append_of_breaks hy]
  cases hw : intervalLength? w with
  | none => rfl
  | some n =>
    obtain ⟨body, rest, rfl, -, hall⟩ := exists_of_intervalLength? hw
    rw [List.append_assoc, hall] at hx
    cases hx

end Coincide

/-! ## Tokens that end by themselves -/

theorem exists_of_lengthThrough (h : lengthThrough closer cs = .ok n) :
    ∃ body rest, cs = body ++ closer :: rest ∧ closer ∉ body ∧ n = body.length + 1 := by
  by_cases hmem : closer ∈ cs
  · obtain ⟨body, rest, rfl, hbody⟩ := List.eq_append_cons_of_mem hmem
    rw [lengthThrough_append hbody] at h
    cases h
    exact ⟨body, rest, rfl, hbody, rfl⟩
  · unfold lengthThrough at h
    rw [if_neg (by simpa using hmem)] at h
    cases h

/-- A class ends by itself. -/
theorem exists_of_classLength {depth : Nat} (h : classLength depth m cs = .ok n) :
    ∃ body rest, cs = body ++ rest ∧ n = m + body.length ∧
      ∀ rest', classLength depth m (body ++ rest') = .ok n := by
  fun_induction classLength depth m cs with
  | case1 | case2 => cases h
  | case3 depth m c cs ih =>
    obtain ⟨body, rest, rfl, rfl, hbody⟩ := ih h
    refine ⟨'\\' :: c :: body, rest, rfl, by simp; omega, fun rest' => ?_⟩
    rw [List.cons_append, List.cons_append, classLength, hbody]
  | case4 depth m cs ih =>
    obtain ⟨body, rest, rfl, rfl, hbody⟩ := ih h
    refine ⟨'[' :: body, rest, rfl, by simp; omega, fun rest' => ?_⟩
    rw [List.cons_append, classLength, hbody]
  | case5 m cs =>
    cases h
    exact ⟨[']'], cs, rfl, rfl, fun rest' => by rw [List.singleton_append, classLength]⟩
  | case6 m cs depth ih =>
    obtain ⟨body, rest, rfl, rfl, hbody⟩ := ih h
    refine ⟨']' :: body, rest, rfl, by simp; omega, fun rest' => ?_⟩
    rw [List.cons_append, classLength, hbody]
  | case7 depth m c cs hlone hescape hopen hclose hinner ih =>
    obtain ⟨body, rest, rfl, rfl, hbody⟩ := ih h
    refine ⟨c :: body, rest, rfl, by simp; omega, fun rest' => ?_⟩
    have hc : c ∉ ['[', ']', '\\'] := by
      simp only [List.mem_cons, List.not_mem_nil, or_false, not_or]
      refine ⟨hopen, fun hc => ?_, fun hc => ?_⟩
      · cases depth with
        | zero => exact hclose rfl hc
        | succ depth => exact hinner depth rfl hc
      · cases hrest : body ++ rest with
        | nil => exact hlone hc hrest
        | cons d ds => exact hescape d ds hc hrest
    have hpass := (passes_char hc).length depth m (body ++ rest')
    rw [List.cons_append]
    exact hpass.trans (hbody rest')

/-! ## Escapes -/

/-- The escapes with a fixed number of characters after the letter. -/
def escapeLengths : List (Char × Nat) := [('u', 4), ('x', 2), ('c', 1)]

/-- Whether the token is an escape that the end of the pattern has cut short. -/
def Token.isTruncated (t : Token) : Bool :=
  escapeLengths.any fun e =>
    t.text.take 2 = ['\\', e.1] && t.text.length < e.2 + 2 && t.text[2]? != some '\x7b'

theorem escape_counted (he : e ∈ escapeLengths) (h : rest.head? = some '\x7b' → e.1 = 'c') :
    escape (e.1 :: rest) = .ok (.atom, 1 + (rest.take e.2).length) := by
  simp only [escapeLengths, List.mem_cons, List.not_mem_nil, or_false] at he
  rcases he with rfl | rfl | rfl
  · rw [escape]
    · rfl
    · rintro tail rfl
      exact absurd (h rfl) (by decide)
  · rw [escape]
    · rfl
    · rintro tail rfl
      exact absurd (h rfl) (by decide)
  · rw [escape]
    rfl

/-- An escape of one character, or a reference. What comes after it must not turn the letter into
something else. -/
theorem escape_plain (hc : c ∉ ['b', 'B', 'u', 'x', 'c'])
    (hangle : c ∈ ['k', 'g'] → rest.head? ≠ some '<')
    (hbrace : c ∈ ['p', 'P'] → rest.head? ≠ some '\x7b') :
    escape (c :: rest) = if '1' ≤ c && c ≤ '9' then
        match number? 10 (2 ^ 64) ((c :: rest).take (digitCount (c :: rest))) with
        | some k => .ok (.backreference k, digitCount (c :: rest))
        | none => .error (.invalidReference .backreference, digitCount (c :: rest))
      else .ok (.atom, 1) := by
  rw [escape]
  · rfl
  all_goals
    intros
    subst_vars
    first
    | exact hc (by decide)
    | exact hangle (by decide) rfl
    | exact hbrace (by decide) rfl

/-- Reading `cs` with `f` ends by itself: what comes after the `n` characters has no part in it. -/
def EndsAlone (f : List Char → Scanned) (cs : List Char) (k : Kind) (n : Nat) : Prop :=
  ∃ body rest, cs = body ++ rest ∧ n = body.length ∧ ∀ rest', f (body ++ rest') = .ok (k, n)

theorem endsAlone_of_atomThrough {a o : Char}
    (hescape : ∀ rest', escape (a :: o :: rest') = atomThrough closer 2 rest')
    (h : atomThrough closer 2 rest = .ok (k, n)) : EndsAlone escape (a :: o :: rest) k n := by
  unfold atomThrough at h
  split at h
  next m hm =>
    cases h
    obtain ⟨body, rest, rfl, hbody, rfl⟩ := exists_of_lengthThrough hm
    refine ⟨a :: o :: (body ++ [closer]), rest, by simp, by simp; omega, fun rest' => ?_⟩
    have happend : a :: o :: (body ++ [closer]) ++ rest' = a :: o :: (body ++ closer :: rest') := by
      simp
    rw [happend, hescape, atomThrough, lengthThrough_append hbody]
  next => cases h

theorem length_of_groupRecursion (h : groupRecursion body m = .ok (k, n)) : n = m := by
  unfold groupRecursion at h
  split at h
  next => cases h
  next =>
    split at h
    next => cases h
    next => split at h <;> cases h <;> rfl

theorem endsAlone_of_marker (h : escape ('g' :: '<' :: rest) = .ok (k, n)) :
    EndsAlone escape ('g' :: '<' :: rest) k n := by
  rw [escape] at h
  split at h
  next m hm =>
    obtain ⟨body, rest, rfl, hbody, rfl⟩ := exists_of_lengthThrough hm
    obtain rfl := length_of_groupRecursion h
    rw [Nat.add_sub_cancel, List.take_left] at h
    refine ⟨'g' :: '<' :: (body ++ ['>']), rest, by simp, by simp, fun rest' => ?_⟩
    have happend : 'g' :: '<' :: (body ++ ['>']) ++ rest'
        = 'g' :: '<' :: (body ++ '>' :: rest') := by
      simp
    rw [happend, escape, lengthThrough_append hbody]
    dsimp only
    rw [Nat.add_sub_cancel, List.take_left, h]
  next => cases h

/-- **What an escape depends on.** Either it ends by itself; or it is one letter, unless an angle
bracket or a brace follows; or it takes a fixed number of characters; or it takes all digits. -/
theorem escape_cases (h : escape cs = .ok (k, n)) :
    EndsAlone escape cs k n ∨
    (∃ c rest, cs = c :: rest ∧ n = 1 ∧ ∀ rest',
      (∀ d ∈ ['<', '\x7b'], rest'.head? = some d → rest.head? = some d) →
        escape (c :: rest') = .ok (k, n)) ∨
    (∃ e ∈ escapeLengths, ∃ rest, cs = e.1 :: rest ∧ (rest.head? = some '\x7b' → e.1 = 'c') ∧
      k = .atom ∧ n = 1 + (rest.take e.2).length) ∨
    (∃ c rest, cs = c :: rest ∧ n = digitCount cs ∧ 0 < n ∧ ∀ rest', digitCount (c :: rest') = n →
      (c :: rest').take n = cs.take n → escape (c :: rest') = .ok (k, n)) := by
  have hrun := h
  unfold escape at h
  split at h
  next => cases h
  next => cases h; exact .inl ⟨['b'], _, rfl, rfl, fun _ => rfl⟩
  next => cases h; exact .inl ⟨['B'], _, rfl, rfl, fun _ => rfl⟩
  next => exact .inl (endsAlone_of_atomThrough (fun _ => by rw [escape]) h)
  next => exact .inl (endsAlone_of_marker hrun)
  next => exact .inl (endsAlone_of_atomThrough (fun _ => escape_braced (by decide) _) h)
  next => exact .inl (endsAlone_of_atomThrough (fun _ => escape_braced (by decide) _) h)
  next => exact .inl (endsAlone_of_atomThrough (fun _ => escape_braced (by decide) _) h)
  next => exact .inl (endsAlone_of_atomThrough (fun _ => escape_braced (by decide) _) h)
  next rest hbrace =>
    cases h
    refine .inr (.inr (.inl ⟨('u', 4), by decide, rest, rfl, fun hhead => ?_, rfl, rfl⟩))
    exact absurd (List.eq_cons_of_mem_head? hhead) (hbrace _)
  next rest hbrace =>
    cases h
    refine .inr (.inr (.inl ⟨('x', 2), by decide, rest, rfl, fun hhead => ?_, rfl, rfl⟩))
    exact absurd (List.eq_cons_of_mem_head? hhead) (hbrace _)
  next rest =>
    cases h
    exact .inr (.inr (.inl ⟨('c', 1), by decide, rest, rfl, fun _ => rfl, rfl, rfl⟩))
  next c rest hb hB hk hg hp hP _ _ hu hx hc =>
    have hletter : c ∉ ['b', 'B', 'u', 'x', 'c'] := by simpa using ⟨hb, hB, hu, hx, hc⟩
    have hangle : c ∈ ['k', 'g'] → rest.head? ≠ some '<' := by
      intro hmem hhead
      have hrest := List.eq_cons_of_mem_head? hhead
      simp only [List.mem_cons, List.not_mem_nil, or_false] at hmem
      exact hmem.elim (fun hc => hk _ hc hrest) (fun hc => hg _ hc hrest)
    have hbrace : c ∈ ['p', 'P'] → rest.head? ≠ some '\x7b' := by
      intro hmem hhead
      have hrest := List.eq_cons_of_mem_head? hhead
      simp only [List.mem_cons, List.not_mem_nil, or_false] at hmem
      exact hmem.elim (fun hc => hp _ hc hrest) (fun hc => hP _ hc hrest)
    rw [escape_plain hletter hangle hbrace] at hrun
    by_cases hdigit : ('1' ≤ c && c ≤ '9') = true
    · rw [if_pos hdigit] at hrun
      split at hrun
      next i hi =>
        cases hrun
        have hother : ∀ ds : List Char, ds.all (fun d => !('1' ≤ d && d ≤ '9')) = true →
            c ∉ ds := by
          intro ds hds hmem
          simpa [hdigit] using List.all_eq_true.1 hds c hmem
        have hpos : 0 < digitCount (c :: rest) := by
          by_contra hzero
          rw [Nat.eq_zero_of_not_pos hzero] at hi
          cases hi
        refine .inr (.inr (.inr ⟨c, rest, rfl, rfl, hpos, fun rest' hcount htake => ?_⟩))
        rw [escape_plain hletter, if_pos hdigit, hcount, htake, hi]
        · exact fun hmem => absurd hmem (hother _ (by decide))
        · exact fun hmem => absurd hmem (hother _ (by decide))
      next => cases hrun
    · rw [if_neg hdigit] at hrun
      cases hrun
      refine .inr (.inl ⟨c, rest, rfl, rfl, fun rest' hnext => ?_⟩)
      rw [escape_plain hletter, if_neg hdigit]
      · exact fun hmem hhead => hangle hmem (hnext '<' (by decide) hhead)
      · exact fun hmem hhead => hbrace hmem (hnext '\x7b' (by decide) hhead)

/-- An escape that has all its characters, or one at the very end. -/
theorem escape_coincide_counted (he : e ∈ escapeLengths)
    (hbrace : (ds ++ follow).head? = some '\x7b' → e.1 = 'c')
    (hlen : ds.length = ((ds ++ follow).take e.2).length)
    (htruncated : (Token.mk .atom ('\\' :: e.1 :: ds)).isTruncated = true → z = follow) :
    escape (e.1 :: (ds ++ z)) = .ok (.atom, ds.length + 1) := by
  have hsizes : escapeLengths.all (fun e => 0 < e.2 && (e.1 != 'c' || e.2 == 1)) = true := by decide
  have hsize : 0 < e.2 ∧ (e.1 = 'c' → e.2 = 1) := by
    simpa [Decidable.imp_iff_not_or] using List.all_eq_true.1 hsizes e he
  rw [List.length_take, List.length_append] at hlen
  by_cases hshort : ds.length < e.2
  · have hend : follow = [] := List.length_eq_zero_iff.1 (by omega)
    subst hend
    rw [List.append_nil] at hbrace
    have hcut : (Token.mk .atom ('\\' :: e.1 :: ds)).isTruncated = true := by
      refine List.any_eq_true.2 ⟨e, he, ?_⟩
      have hnext : ds[0]? ≠ some '\x7b' := by
        rw [← List.head?_eq_getElem?]
        intro hhead
        have := hsize.2 (hbrace hhead)
        cases ds with
        | nil => cases hhead
        | cons d ds => simp at hshort; omega
      simpa [hnext] using hshort
    rw [htruncated hcut, escape_counted he (by simpa using hbrace), List.append_nil,
      List.take_of_length_le (Nat.le_of_lt hshort), Nat.add_comm]
  · have hall : ds.length = e.2 := by omega
    have hbrace' : (ds ++ z).head? = some '\x7b' → e.1 = 'c' := by
      cases ds with
      | nil => simp at hall; omega
      | cons d ds => exact hbrace
    rw [escape_counted he hbrace', ← hall, List.take_left, Nat.add_comm]

theorem escape_coincide (h : escape (cs ++ follow) = .ok (k, cs.length)) (hz : Coincide follow z)
    (htruncated : (Token.mk k ('\\' :: cs)).isTruncated = true → z = follow) :
    escape (cs ++ z) = .ok (k, cs.length) := by
  rcases escape_cases h with ⟨body, rest, hbody, hn, hall⟩ | ⟨c, rest, hrest, hn, hall⟩ |
    ⟨e, he, rest, hrest, hbrace, rfl, hn⟩ | ⟨c, rest, hrest, hn, hpos, hall⟩
  · obtain ⟨rfl, rfl⟩ := List.append_inj hbody hn
    exact hall z
  · obtain ⟨d, rfl⟩ := List.length_eq_one_iff.1 hn
    cases hrest
    refine hall z fun d hd hhead => hz.head?_eq ?_ hhead
    simp only [List.mem_cons, List.not_mem_nil, or_false] at hd
    rcases hd with rfl | rfl <;> decide
  · cases cs with
    | nil => simp at hn; omega
    | cons d ds =>
      cases hrest
      refine escape_coincide_counted he hbrace ?_ htruncated
      have hn : ds.length + 1 = 1 + ((ds ++ follow).take e.2).length := hn
      omega
  · cases cs with
    | nil => cases hpos
    | cons d cs =>
      cases hrest
      refine hall (cs ++ z) (hz.digitCount_eq (v := c :: cs) hn.symm) ?_
      rw [← List.cons_append, List.take_left, List.take_left]

/-! ## Openers -/

/-- The name of a group goes through the angle bracket that closes it. -/
theorem endsAlone_named (hbody : '>' ∉ body)
    (hbehind : ∀ c ∈ ['=', '!'], (body ++ '>' :: rest).head? ≠ some c) :
    EndsAlone groupOpener ('?' :: '<' :: (body ++ '>' :: rest)) (.captureOpen (some body))
      (body.length + 3) := by
  refine ⟨'?' :: '<' :: (body ++ ['>']), rest, by simp, by simp, fun rest' => ?_⟩
  have hlook : ∀ c ∈ body.head?, c ≠ '=' ∧ c ≠ '!' := by
    cases body with
    | nil => simp
    | cons c cs => simpa using hbehind
  obtain ⟨c, cs, htext, hscan⟩ := sound_named hbody hlook rest' (by simp [Token.admits])
  cases htext
  simpa [scanAfter] using hscan

/-- A marker for the whole pattern goes through the parenthesis that closes it. -/
theorem endsAlone_recursion (h : groupOpener ('?' :: 'R' :: '=' :: rest) = .ok (k, n)) :
    EndsAlone groupOpener ('?' :: 'R' :: '=' :: rest) k n := by
  rw [groupOpener] at h
  split at h
  next => cases h
  next hclose =>
    obtain ⟨ds, rest, rfl, hds, hall⟩ :=
      exists_of_head?_drop_takeWhile (by simpa [digitCount] using hclose)
    have hcount : ∀ rest', digitCount (ds ++ ')' :: rest') = ds.length := fun rest' => by
      rw [digitCount, takeWhile_append_cons hall (by decide)]
    rw [hcount, List.take_left] at h
    split at h
    next d hd =>
      cases h
      refine ⟨'?' :: 'R' :: '=' :: (ds ++ [')']), rest, by simp, by simp, fun rest' => ?_⟩
      have happend : '?' :: 'R' :: '=' :: (ds ++ [')']) ++ rest'
          = '?' :: 'R' :: '=' :: (ds ++ ')' :: rest') := by
        simp
      rw [happend, groupOpener, hcount, List.drop_left, List.take_left, hd]
      rfl
    next => cases h

/-- Whether a character can stand for a flag, or before the flags that are switched off. -/
def isFlag (c : Char) : Bool := c.isAlpha || c = '-'

theorem groupOpener_flags (hplain : ∀ c ∈ [':', '>', '=', '!', '<'], rest.head? ≠ some c)
    (hmarker : ∀ tail, rest ≠ 'R' :: '=' :: tail) :
    groupOpener ('?' :: rest) =
      if (rest.drop (rest.takeWhile isFlag).length).head? = some ':' then
        .ok (.groupOpen, (rest.takeWhile isFlag).length + 2)
      else .error (.invalidGroup, (rest.takeWhile isFlag).length + 1) := by
  rw [groupOpener]
  · rfl
  all_goals
    intros
    subst_vars
    first
    | exact hmarker _ rfl
    | exact hplain _ (by decide) rfl

/-- A group with flags goes through the colon. -/
theorem endsAlone_flags (hplain : ∀ c ∈ [':', '>', '=', '!', '<'], rest.head? ≠ some c)
    (hmarker : ∀ tail, rest ≠ 'R' :: '=' :: tail) (h : groupOpener ('?' :: rest) = .ok (k, n)) :
    EndsAlone groupOpener ('?' :: rest) k n := by
  rw [groupOpener_flags hplain hmarker] at h
  split at h
  next hcolon =>
    obtain ⟨ws, rest, rfl, hws, hall⟩ := exists_of_head?_drop_takeWhile hcolon
    rw [hws] at h
    cases h
    refine ⟨'?' :: (ws ++ [':']), rest, by simp, by simp, fun rest' => ?_⟩
    have happend : '?' :: (ws ++ [':']) ++ rest' = '?' :: (ws ++ ':' :: rest') := by simp
    have hhead : (ws ++ ':' :: rest').head? = (ws ++ ':' :: rest).head? := by
      cases ws <;> rfl
    have hmarker' : ∀ tail, ws ++ ':' :: rest' ≠ 'R' :: '=' :: tail := by
      intro tail heq
      cases ws with
      | nil => cases heq
      | cons c ws =>
        cases ws with
        | nil => cases heq
        | cons d ws =>
          cases heq
          exact absurd (hall '=' (by simp)) (by decide)
    rw [happend, groupOpener_flags (by rw [hhead]; exact hplain) hmarker',
      takeWhile_append_cons hall (by decide), List.drop_left]
    rfl
  next => cases h

/-- An opener ends by itself, unless it is a single parenthesis. -/
theorem groupOpener_cases (h : groupOpener cs = .ok (k, n)) :
    EndsAlone groupOpener cs k n ∨ (cs.head? ≠ some '?' ∧ k = .captureOpen none ∧ n = 0) := by
  have hrun := h
  unfold groupOpener at h
  split at h
  next => cases h; exact .inl ⟨['?', ':'], _, rfl, rfl, fun _ => rfl⟩
  next => cases h; exact .inl ⟨['?', '>'], _, rfl, rfl, fun _ => rfl⟩
  next => cases h; exact .inl ⟨['?', '='], _, rfl, rfl, fun _ => rfl⟩
  next => cases h; exact .inl ⟨['?', '!'], _, rfl, rfl, fun _ => rfl⟩
  next => cases h; exact .inl ⟨['?', '<', '='], _, rfl, rfl, fun _ => rfl⟩
  next => cases h; exact .inl ⟨['?', '<', '!'], _, rfl, rfl, fun _ => rfl⟩
  next rest hlook hnot =>
    split at h
    next m hm =>
      obtain ⟨body, rest, rfl, hbody, rfl⟩ := exists_of_lengthThrough hm
      rw [Nat.add_sub_cancel, List.take_left] at h
      cases h
      refine .inl (endsAlone_named hbody fun c hc hhead => ?_)
      simp only [List.mem_cons, List.not_mem_nil, or_false] at hc
      rcases hc with rfl | rfl
      · exact hlook _ (List.eq_cons_of_mem_head? hhead)
      · exact hnot _ (List.eq_cons_of_mem_head? hhead)
    next => cases h
  next => exact .inl (endsAlone_recursion hrun)
  next rest hgroup hatomic hahead hnot _ _ hangle hmarker =>
    refine .inl (endsAlone_flags (fun c hc hhead => ?_) hmarker hrun)
    have hrest := List.eq_cons_of_mem_head? hhead
    simp only [List.mem_cons, List.not_mem_nil, or_false] at hc
    rcases hc with rfl | rfl | rfl | rfl | rfl
    · exact hgroup _ hrest
    · exact hatomic _ hrest
    · exact hahead _ hrest
    · exact hnot _ hrest
    · exact hangle _ hrest
  next hquestion =>
    cases h
    exact .inr ⟨fun hhead => hquestion _ (List.eq_cons_of_mem_head? hhead), rfl, rfl⟩

/-! ## Tokens -/

theorem scanAfter_coincide (h : scanAfter c (cs ++ follow) = .ok (k, cs.length))
    (hz : Coincide follow z) (htruncated : (Token.mk k (c :: cs)).isTruncated = true → z = follow) :
    scanAfter c (cs ++ z) = .ok (k, cs.length) := by
  have hsign : quantifierWithSuffix 0 (cs ++ follow) = (k, cs.length) →
      quantifierWithSuffix 0 (cs ++ z) = (k, cs.length) := fun hq => by
    rw [← Nat.zero_add cs.length] at hq ⊢
    exact hz.quantifierWithSuffix_eq hq
  unfold scanAfter at h
  split at h
  next => exact escape_coincide h hz htruncated
  next =>
    show (classLength 0 0 (cs ++ z)).map _ = _
    cases hclass : classLength 0 0 (cs ++ follow) with
    | error e =>
      rw [hclass] at h
      cases h
    | ok n =>
      rw [hclass] at h
      obtain ⟨body, rest, hbody, hn, hall⟩ := exists_of_classLength hclass
      have hlen : n = cs.length := by injection h with h; exact congrArg Prod.snd h
      obtain ⟨rfl, rfl⟩ := List.append_inj hbody (by omega)
      rw [hall z]
      exact h
  next =>
    rcases groupOpener_cases h with ⟨body, rest, hbody, hn, hall⟩ | ⟨hhead, rfl, hn⟩
    · obtain ⟨rfl, rfl⟩ := List.append_inj hbody hn
      exact hall z
    · -- only an unnamed capture depends on what comes next: it must not be a question mark
      obtain rfl := List.length_eq_zero_iff.1 hn
      exact groupOpener_of_head?_ne fun hquestion => hhead (hz.head?_eq (by decide) hquestion)
  next => exact h
  next => exact h
  next => exact h
  next => exact h
  next => exact congrArg _ (hsign (Except.ok.inj h))
  next => exact congrArg _ (hsign (Except.ok.inj h))
  next => exact congrArg _ (hsign (Except.ok.inj h))
  next =>
    rw [scanAfter]
    cases hn : intervalLength? (cs ++ follow) with
    | none =>
      rw [hn] at h
      cases cs with
      | nil => rw [List.nil_append, hz.intervalLength?_eq_none hn]; exact h
      | cons d cs => cases h
    | some n =>
      rw [hn] at h
      obtain ⟨body, rest, hbody, rfl, hall⟩ := exists_of_intervalLength? hn
      dsimp only at h
      rw [hbody, List.drop_left] at h
      have hq := Except.ok.inj h
      have hle : body.length ≤ cs.length := by
        have hsuffix : body.length ≤ (quantifierWithSuffix body.length rest).2 := by
          unfold quantifierWithSuffix
          split <;> simp
        rwa [hq] at hsuffix
      obtain ⟨ds, rfl⟩ : body <+: cs :=
        List.prefix_of_prefix_length_le (hbody ▸ List.prefix_append body rest)
          (List.prefix_append cs follow) hle
      rw [List.append_assoc, List.append_cancel_left_eq] at hbody
      subst hbody
      rw [List.length_append] at hq ⊢
      rw [List.append_assoc, hall]
      dsimp only
      rw [List.drop_left, hz.quantifierWithSuffix_eq hq]
  next =>
    rw [scanAfter]
    · exact h
    all_goals assumption

/-- **A token stays what it is if the text after it is changed from a break on.** Only an escape
that is cut short must stay at the end. -/
theorem Token.ReadsBefore.coincide {t : Token} (h : t.ReadsBefore follow) (hz : Coincide follow z)
    (htruncated : t.isTruncated = true → z = follow) : t.ReadsBefore z := by
  obtain ⟨kind, text⟩ := t
  obtain ⟨c, cs, rfl, hscan⟩ := h
  exact ⟨c, cs, rfl, scanAfter_coincide hscan hz htruncated⟩

end Diglot.Emitted
