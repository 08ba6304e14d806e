import Diglot.Host.Tree.Reader
import Diglot.Proofs.Host.Lexing

/-!
# Items of texts in a context

How the host reads a part of a pattern that has no captures, wherever it stands: as items that are
added to the group that is open. Classes, alternatives and groups are put together from their parts.
-/

namespace Diglot.Host

variable {r : Reading} {text text' : List Char} {items : List Item} {item : Item}
  {bodies : List Node} {parts : List ClassPart}

/-- The reading with more items. -/
def Reading.pushAll (r : Reading) (items : List Item) : Reading :=
  { r with group := { r.group with items := items.reverse ++ r.group.items } }

theorem captureNames_append (ts us : List Token) :
    captureNames (ts ++ us) = captureNames ts ++ captureNames us :=
  List.filterMap_append

theorem Node.captures_ofSequence : ∀ ns : List Node, (ofSequence ns).captures = ns.flatMap (·.captures)
  | [] => rfl
  | [n] => by simp [ofSequence]
  | n :: m :: ns => by
    rw [ofSequence, captures, captures_ofSequence (m :: ns)]
    · rfl
    · exact List.cons_ne_nil m ns

theorem Node.captures_ofAlternatives : ∀ ns : List Node,
    (ofAlternatives ns).captures = ns.flatMap (·.captures)
  | [] => rfl
  | [n] => by simp [ofAlternatives]
  | n :: m :: ns => by
    rw [ofAlternatives, captures, captures_ofAlternatives (m :: ns)]
    · rfl
    · exact List.cons_ne_nil m ns

variable {g : Grammar}

/-- Reading goes on from where the first tokens lead. -/
theorem foldlM_step_append {names : List (Option (List Char))} {ts us : List Token} {s : Reading}
    (h : ts.foldlM (Reading.step g names) r = some s) :
    (ts ++ us).foldlM (Reading.step g names) r = us.foldlM (Reading.step g names) s := by
  rw [List.foldlM_append, h]
  rfl

/-- At the end nothing is open. -/
theorem Reading.of_finish {root : Node} (h : r.finish = some root) :
    r.classes = [] ∧ r.outer = [] ∧ root = r.group.body := by
  unfold finish at h
  split at h
  next hend =>
    cases h
    simp only [Bool.and_eq_true, List.isEmpty_iff] at hend
    exact ⟨hend.1.1, hend.1.2, rfl⟩
  next => cases h

/-! ## Tokens in classes -/

/-- A token in a class changes the classes that are open, and the last one that closes becomes an
item. -/
theorem Reading.classStep_cases {c : OpenClass} {cs : List OpenClass} {t : Token} {s : Reading}
    (hs : r.classStep g c cs t = some s) : t.captureName? = none ∧
      ((∃ classes, classes.length = t.classDepth (cs.length + 1) ∧
          ∀ r : Reading, r.classStep g c cs t = some { r with classes }) ∨
        ∃ content, t = .classClose ∧ cs = [] ∧ ∀ r : Reading, r.classStep g c [] .classClose =
          some { r.push ⟨if c.negated then .set true content else .ofSet content, true⟩ with
            classes := [] }) := by
  cases t with
  | code | set | hyphen | difference | intersection | classOpen =>
    exact ⟨rfl, .inl ⟨_, rfl, fun _ => rfl⟩⟩
  | classClose =>
    rw [classStep] at hs
    obtain ⟨content, hcontent, hs⟩ := Option.bind_eq_some_iff.1 hs
    dsimp only at hs
    by_cases htexts : (c.negated && content.mayHaveTexts) = true
    · rw [if_pos htexts] at hs
      cases hs
    refine ⟨rfl, ?_⟩
    cases cs with
    | nil =>
      refine .inr ⟨content, rfl, rfl, fun r => ?_⟩
      rw [classStep, hcontent]
      exact if_neg htexts
    | cons o os =>
      let part := ClassPart.set (if c.negated then .complement content else content)
      refine .inl ⟨{ o with parts := part :: o.parts } :: os, rfl, fun r => ?_⟩
      rw [classStep, hcontent]
      exact if_neg htexts
  | _ => cases hs

/-! ## Sequences -/

/-- Wherever the text stands outside classes, it is read as the items. -/
def Reads (g : Grammar) (text : List Char) (items : List Item) : Prop :=
  ∃ ts, (∀ x : Dialect, x.grammar = g → Lexes x 0 0 text ts) ∧ captureNames ts = [] ∧
    ∀ names (r : Reading), r.classes = [] →
      ts.foldlM (Reading.step g names) r = some (r.pushAll items)

theorem Reads.nil : Reads g [] [] :=
  ⟨[], fun _ _ => .nil, rfl, fun _ _ _ => rfl⟩

theorem Reads.append {items' : List Item} (h : Reads g text items) (h' : Reads g text' items') :
    Reads g (text ++ text') (items ++ items') := by
  obtain ⟨ts, hlex, hnames, hread⟩ := h
  obtain ⟨ts', hlex', hnames', hread'⟩ := h'
  refine ⟨ts ++ ts', fun x hx => (hlex x hx).append (hlex' x hx), ?_, ?_⟩
  · rw [captureNames_append, hnames, hnames']
    rfl
  · intro names r hr
    rw [foldlM_step_append (hread names r hr), hread' names (r.pushAll items) hr]
    simp [Reading.pushAll]

/-- A token that adds an item. -/
theorem reads_token {t : Token} (hlex : ∀ x : Dialect, x.grammar = g → Lexes x 0 0 text [t])
    (hname : t.captureName? = none)
    (hstep : ∀ names (r : Reading), r.plainStep g names t = some (r.push item)) :
    Reads g text [item] := by
  refine ⟨[t], hlex, by simp [captureNames, hname], ?_⟩
  intro names r hr
  rw [List.foldlM_cons, Reading.step, hr]
  dsimp only
  rw [hstep names r]
  rfl

/-! ## Alternatives and groups -/

/-- Where a group has just been opened, the text is read as the alternatives. -/
def ReadsBody (g : Grammar) (text : List Char) (bodies : List Node) : Prop :=
  ∃ ts, (∀ x : Dialect, x.grammar = g → Lexes x 0 0 text ts) ∧ captureNames ts = [] ∧
    ∀ names (r : Reading), r.classes = [] → r.group.items = [] →
      ∃ group : OpenGroup, ts.foldlM (Reading.step g names) r = some { r with group } ∧
        group.opener = r.group.opener ∧
        group.body = Node.ofAlternatives (r.group.alternatives.reverse ++ bodies)

/-- The node of items one after the other. -/
def sequenceOf (items : List Item) : Node :=
  Node.ofSequence (items.map (·.node))

theorem Reads.body (h : Reads g text items) : ReadsBody g text [sequenceOf items] := by
  obtain ⟨ts, hlex, hnames, hread⟩ := h
  refine ⟨ts, hlex, hnames, fun names r hr hitems => ⟨_, hread names r hr, rfl, ?_⟩⟩
  simp [OpenGroup.body, OpenGroup.current, hitems, sequenceOf]

theorem lexes_bar (x : Dialect) : Lexes x 0 0 ['|'] [.bar] :=
  Lexes.token fun _ => rfl

theorem Reads.bar (h : Reads g text items) (h' : ReadsBody g text' bodies) :
    ReadsBody g (text ++ '|' :: text') (sequenceOf items :: bodies) := by
  obtain ⟨ts, hlex, hnames, hread⟩ := h
  obtain ⟨ts', hlex', hnames', hread'⟩ := h'
  refine ⟨ts ++ ([.bar] ++ ts'), fun x hx => ?_, ?_, ?_⟩
  · exact (hlex x hx).append ((lexes_bar x).append (hlex' x hx))
  · rw [captureNames_append, captureNames_append, hnames, hnames']
    rfl
  · intro names r hr hitems
    -- Behind the bar the group begins anew, with one more alternative before it.
    let next : Reading := { r with
      group := { r.group with
        alternatives := (r.pushAll items).group.current :: r.group.alternatives, items := [] } }
    obtain ⟨group, hfold, hopener, hbody⟩ := hread' names next hr rfl
    refine ⟨group, ?_, hopener, ?_⟩
    · have hstep : [Token.bar].foldlM (Reading.step g names) (r.pushAll items) = some next := by
        rw [List.foldlM_cons, Reading.step, show (r.pushAll items).classes = [] from hr]
        rfl
      rw [foldlM_step_append (hread names r hr), foldlM_step_append hstep]
      exact hfold
    · rw [hbody]
      simp [next, Reading.pushAll, OpenGroup.current, hitems, sequenceOf]

/-- A group without a capture, from its opener to its closing parenthesis. -/
theorem ReadsBody.group {opening : List Char} {opener : Opener}
    (hopening : ∀ x : Dialect, x.grammar = g → Lexes x 0 0 opening [.groupOpen opener])
    (hopener : ∀ name, opener ≠ .capture name) (h : ReadsBody g text bodies)
    (hitem : ∀ o : OpenGroup, o.opener = opener → o.body = Node.ofAlternatives bodies → o.close g = item)
    :
    Reads g (opening ++ (text ++ [')'])) [item] := by
  obtain ⟨ts, hlex, hnames, hread⟩ := h
  have hclose : ∀ x : Dialect, Lexes x 0 0 [')'] [.groupClose] := fun x => Lexes.token fun _ => rfl
  refine ⟨[.groupOpen opener] ++ (ts ++ [.groupClose]), fun x hx => ?_, ?_, ?_⟩
  · exact (hopening x hx).append ((hlex x hx).append (hclose x))
  · have hopen : captureNames [.groupOpen opener] = [] := by
      cases opener <;> first | rfl | exact absurd rfl (hopener _)
    rw [captureNames_append, captureNames_append, hopen, hnames]
    rfl
  · intro names r hr
    obtain ⟨opened, classes, top, outer⟩ := r
    cases hr
    obtain ⟨group, hfold, hsame, hbody⟩ := hread names ⟨opened, [], { opener }, top :: outer⟩ rfl rfl
    have hopen : [Token.groupOpen opener].foldlM (Reading.step g names) ⟨opened, [], top, outer⟩
        = some ⟨opened, [], { opener }, top :: outer⟩ := by
      cases opener <;> first | rfl | exact absurd rfl (hopener _)
    rw [foldlM_step_append hopen, foldlM_step_append hfold, ← hitem group hsame hbody]
    rfl

/-! ## Classes -/

/-- The token of a part of a class. -/
def ClassPart.token : ClassPart → Token
  | code n => .code n
  | set s => .set s
  | hyphen => .hyphen
  | difference => .difference
  | intersection => .intersection

/-- Inside a class, the text is read as the parts. It does not begin with the sign of a complement. -/
structure ReadsParts (g : Grammar) (text : List Char) (parts : List ClassPart) : Prop where
  lexes : ∀ x : Dialect, x.grammar = g → ∀ depth,
    Lexes x (depth + 1) (depth + 1) text (parts.map (·.token))
  head : text.head? ≠ some '^'

theorem ReadsParts.nil : ReadsParts g [] [] :=
  ⟨fun _ _ _ => .nil, by simp⟩

theorem ReadsParts.append {parts' : List ClassPart} (h : ReadsParts g text parts)
    (h' : ReadsParts g text' parts') :
    ReadsParts g (text ++ text') (parts ++ parts') where
  lexes x hx depth := by
    rw [List.map_append]
    exact (h.lexes x hx depth).append (h'.lexes x hx depth)
  head := by
    cases text with
    | nil => exact h'.head
    | cons c cs => exact h.head

theorem foldlM_step_parts (names : List (Option (List Char))) (parts : List ClassPart)
    {c : OpenClass} {cs : List OpenClass} (h : r.classes = c :: cs) :
    (parts.map (·.token)).foldlM (Reading.step g names) r
      = some { r with classes := { c with parts := parts.reverse ++ c.parts } :: cs } := by
  induction parts generalizing r c with
  | nil =>
    obtain ⟨opened, classes, group, outer⟩ := r
    cases h
    rfl
  | cons p ps ih =>
    have hstep : Reading.step g names r p.token
        = some { r with classes := { c with parts := p :: c.parts } :: cs } := by
      rw [Reading.step, h]
      cases p <;> rfl
    rw [List.map_cons, List.foldlM_cons, hstep]
    show (ps.map (·.token)).foldlM (Reading.step g names)
      { r with classes := { c with parts := p :: c.parts } :: cs } = _
    rw [ih rfl]
    simp

/-- The brackets of a class, with the sign of a complement or without. -/
theorem ReadsParts.brackets (h : ReadsParts g text parts) {negated : Bool} {s : CharSet}
    (hs : ({ negated, parts := parts.reverse } : OpenClass).content? g = some s)
    (htexts : s.mayHaveTexts = false) :
    Reads g ('[' :: ((if negated then ['^'] else []) ++ (text ++ [']'])))
      [⟨if negated then .set true s else .ofSet s, true⟩] := by
  refine ⟨[.classOpen negated] ++ (parts.map (·.token) ++ [.classClose]), fun x hx => ?_, ?_, ?_⟩
  · intro rest
    have hclose : Lexes x 1 0 [']'] [.classClose] := Lexes.token fun _ => rfl
    have hinside : LexesBefore x 1 0 (text ++ [']']) (parts.map (·.token) ++ [.classClose]) rest :=
      ((h.lexes x hx 0).append hclose) rest
    have hopen : LexesBefore x 0 1 ('[' :: (if negated then ['^'] else [])) [.classOpen negated]
        (text ++ [']'] ++ rest) := by
      refine LexesBefore.token ?_
      cases negated with
      | true => rfl
      | false =>
        have hhead : (text ++ [']'] ++ rest).head? ≠ some '^' := by
          cases text with
          | nil => simp
          | cons c cs => simpa using h.head
        show (if (text ++ [']'] ++ rest).head? == some '^' then _ else _) = _
        rw [if_neg (by simpa using hhead)]
        rfl
    exact hopen.append hinside
  · have hnone : ∀ p : ClassPart, p.token.captureName? = none := by
      intro p
      cases p <;> rfl
    have hparts : captureNames (parts.map (·.token)) = [] := by
      rw [captureNames, List.filterMap_map, List.filterMap_eq_nil_iff]
      exact fun p _ => hnone p
    rw [captureNames_append, captureNames_append, hparts]
    rfl
  · intro names r hr
    have hopen : [Token.classOpen negated].foldlM (Reading.step g names) r
        = some { r with classes := [{ negated }] } := by
      rw [List.foldlM_cons, Reading.step, hr]
      rfl
    rw [foldlM_step_append hopen, foldlM_step_append (foldlM_step_parts names parts rfl),
      List.append_nil, List.foldlM_cons, Reading.step]
    simp only [Reading.classStep, hs]
    obtain ⟨opened, classes, group, outer⟩ := r
    cases hr
    simp [htexts, Reading.pushAll, Reading.push, OpenGroup.push]

end Diglot.Host
