import Diglot.Expression
import Diglot.Proofs.Conversion.Captures
import Diglot.Proofs.Search.FirstMatch
import Mathlib

/-!
# Leading anchors

A leading search-start anchor is taken off the pattern, and a strategy stands for it. A search then
finds the first match of the rest whose start satisfies the anchor. For the start of a line, this is
the assertion that `^` is lowered to, read and matched by the host.
-/

namespace Diglot

open Host (Found Regex)

variable {s : Strategy} {c : Char} {flags : Host.Flags} {text : Array Char} {p : Nat}
  {w : Emitted.Written} {x : Expression} {r : Regex}

/-! ## Anchors and strategies -/

/-- A leading anchor. -/
inductive Anchor where
  /-- `\G` -/
  | searchStart
  /-- `(?!\G)` -/
  | notSearchStart
  /-- `(?:^|\G)` -/
  | lineOrSearchStart
  deriving DecidableEq, Repr

namespace Anchor

/-- The strategy that stands for an anchor. -/
def strategy (singleline : Bool) : Anchor → Strategy
  | searchStart => .searchStart
  | notSearchStart => .notSearchStart
  | lineOrSearchStart => if singleline then .stringOrSearchStart else .lineOrSearchStart

/-- The anchor holds at `p` in a search from `start`, where `LineStart` says where a line starts. -/
def Holds (LineStart : Nat → Prop) (start p : Nat) : Anchor → Prop
  | searchStart => p = start
  | notSearchStart => p ≠ start
  | lineOrSearchStart => p = start ∨ LineStart p

end Anchor

namespace Source

variable {n : Node}

/-- The second tree is the first one without the anchor at its front: in its place there is nothing.
An alternation loses the plain anchor of every alternative. -/
inductive Removes : Anchor → Node → Node → Prop where
  | searchStart : Removes .searchStart (.assertion .searchStart) .empty
  | notSearchStart :
    Removes .notSearchStart (.group (.look ⟨false, true⟩) (.assertion .searchStart)) .empty
  | lineOrSearchStart : Removes .lineOrSearchStart
      (.group .plain (.alternation [.assertion .lineStart, .assertion .searchStart])) .empty
  | searchOrLineStart : Removes .lineOrSearchStart
      (.group .plain (.alternation [.assertion .searchStart, .assertion .lineStart])) .empty
  | sequence {a : Anchor} {n n' : Node} (ns : List Node) (h : Removes a n n') :
    Removes a (.sequence (n :: ns)) (.sequence (n' :: ns))
  | flags {a : Anchor} {n n' : Node} (change : FlagChange) (h : Removes a n n') :
    Removes a (.group (.flags change) n) (.group (.flags change) n')
  | capture {a : Anchor} {n n' : Node} (k : Nat) (name : Option String) (h : Removes a n n') :
    Removes a (.group (.capture k name) n) (.group (.capture k name) n')
  | alternation {ns ns' : List Node} (h : List.Forall₂ (Removes .searchStart) ns ns') :
    Removes .searchStart (.alternation ns) (.alternation ns')

namespace Node

theorem eq_searchStart (h : n.isSearchStart) : n = .assertion .searchStart := by
  unfold isSearchStart at h
  split at h
  · rfl
  · cases h

theorem eq_lineOrSearchStart (h : n.isLineOrSearchStart) :
    n = .alternation [.assertion .lineStart, .assertion .searchStart] ∨
      n = .alternation [.assertion .searchStart, .assertion .lineStart] := by
  unfold isLineOrSearchStart at h
  split at h
  · exact .inl rfl
  · exact .inr rfl
  · cases h

mutual

/-- What is found at the front of a tree is what is taken off it. -/
theorem removes_withoutAnchor : ∀ (n : Node) {s : Strategy}, n.leadingStrategy? = some s →
    ∃ a : Anchor, a.strategy false = s ∧ Removes a n n.withoutAnchor
  | .assertion .searchStart, s, h => by
    cases h
    exact ⟨.searchStart, rfl, .searchStart⟩
  | .group (.look ⟨false, true⟩) body, s, h => by
    rw [leadingStrategy?] at h
    split at h
    next hb =>
      cases h
      rw [eq_searchStart hb]
      exact ⟨.notSearchStart, rfl, .notSearchStart⟩
    next => cases h
  | .group .plain body, s, h => by
    rw [leadingStrategy?] at h
    split at h
    next hb =>
      cases h
      rcases eq_lineOrSearchStart hb with rfl | rfl
      · exact ⟨.lineOrSearchStart, rfl, .lineOrSearchStart⟩
      · exact ⟨.lineOrSearchStart, rfl, .searchOrLineStart⟩
    next => cases h
  | .group (.flags change) body, s, h => by
    rw [leadingStrategy?] at h
    obtain ⟨a, ha, hr⟩ := removes_withoutAnchor body h
    exact ⟨a, ha, .flags change hr⟩
  | .group (.capture k name) body, s, h => by
    rw [leadingStrategy?] at h
    obtain ⟨a, ha, hr⟩ := removes_withoutAnchor body h
    exact ⟨a, ha, .capture k name hr⟩
  | .alternation ns, s, h => by
    rw [leadingStrategy?] at h
    split at h
    next hall =>
      cases h
      exact ⟨.searchStart, rfl, .alternation (removes_withoutAnchors ns hall)⟩
    next => cases h
  | .sequence (n :: ns), s, h => by
    rw [leadingStrategy?] at h
    obtain ⟨a, ha, hr⟩ := removes_withoutAnchor n h
    exact ⟨a, ha, .sequence ns hr⟩

theorem removes_withoutAnchors : ∀ (ns : List Node), allSearchStart ns = true →
    List.Forall₂ (Removes .searchStart) ns (withoutAnchors ns)
  | [], _ => .nil
  | n :: ns, h => by
    rw [allSearchStart, Bool.and_eq_true, beq_iff_eq] at h
    obtain ⟨a, ha, hr⟩ := removes_withoutAnchor n h.1
    -- no other anchor has that strategy
    have hplain : a = .searchStart := by
      cases a <;> first | rfl | cases ha
    exact .cons (hplain ▸ hr) (removes_withoutAnchors ns h.2)

end

/-- A strategy stands for an anchor that has been taken off. -/
theorem removes_of_splitStrategy {singleline : Bool} {n' : Node}
    (h : n.splitStrategy singleline = (some s, n')) :
    ∃ a : Anchor, a.strategy singleline = s ∧ Removes a n n' := by
  unfold splitStrategy at h
  cases hl : n.leadingStrategy? with
  | none =>
    rw [hl] at h
    cases h
  | some found =>
    obtain ⟨a, ha, hr⟩ := removes_withoutAnchor n hl
    rw [hl] at h
    cases a <;> cases ha <;> cases h
    · exact ⟨.searchStart, rfl, hr⟩
    · exact ⟨.notSearchStart, rfl, hr⟩
    · exact ⟨.lineOrSearchStart, rfl, hr⟩

end Node

end Source

/-! ## Starts of lines -/

namespace Unicode

/-- The characters that case folding moves, and those that it moves them to, come after the control
characters. -/
theorem newline_lt_foldShifts : ∀ s ∈ foldShifts,
    '\n'.toNat < s.run.first ∧ ('\n'.toNat : Int) < s.run.first + s.distance := by
  decide +kernel

theorem eq_newline_code {n : Nat} (h : Char.ofNat n = '\n') : n = '\n'.toNat := by
  rw [← h, toNat_ofNat_of_ne (by rw [h]; decide)]

theorem eq_newline_of_fold (h : fold c = '\n') : c = '\n' := by
  unfold fold shifted? at h
  cases hs : foldShifts.find? (·.run.contains c.toNat) with
  | none =>
    rw [hs] at h
    exact h
  | some s =>
    rw [hs, Option.map_some, Option.getD_some] at h
    have htarget := eq_newline_code h
    have hbounds := newline_lt_foldShifts s (List.mem_of_find?_eq_some hs)
    have hrun := List.find?_some hs
    rw [Run.contains, Bool.and_eq_true, Bool.and_eq_true, decide_eq_true_eq] at hrun
    omega

theorem newline_not_mem_shiftedTo (c : Char) : '\n' ∉ shiftedTo foldShifts c := by
  intro h
  obtain ⟨s, hs, hc⟩ := List.mem_filterMap.1 h
  dsimp only at hc
  split at hc
  next hrun =>
    have htarget := eq_newline_code (Option.some.inj hc)
    have hbounds := newline_lt_foldShifts s hs
    rw [Run.contains, Bool.and_eq_true, Bool.and_eq_true, decide_eq_true_eq] at hrun
    omega
  next => cases hc

theorem eq_newline_of_foldedAlike (h : '\n' ∈ foldedAlike c) : c = '\n' := by
  rcases List.mem_cons.1 h with h | h
  · exact eq_newline_of_fold h.symm
  · exact absurd h (newline_not_mem_shiftedTo _)

end Unicode

namespace Host

/-- A newline is alike to no other character. -/
theorem eq_newline_of_alike {g : Grammar} (h : '\n' ∈ g.alike c) : c = '\n' := by
  unfold Grammar.alike at h
  split at h
  · exact Unicode.eq_newline_of_foldedAlike h
  · rcases List.mem_cons.1 (List.mem_of_mem_filter h) with h | h
    · exact h.symm
    · exact Unicode.eq_newline_of_foldedAlike h

/-- The class of all characters but the newline. -/
def notNewline : Node := .set true (.union (.span '\n'.toNat '\n'.toNat) .empty)

theorem accepts_notNewline (g : Grammar) (m : Mode) (c : Char) :
    CharSet.accepts g m true (.union (.span '\n'.toNat '\n'.toNat) .empty) c = (c != '\n') := by
  have hspan : ∀ c : Char, (decide ('\n'.toNat ≤ c.toNat) && decide (c.toNat ≤ '\n'.toNat))
      = (c == '\n') := by
    intro c
    rw [Bool.eq_iff_iff, Bool.and_eq_true, decide_eq_true_eq, decide_eq_true_eq, beq_iff_eq,
      ← Char.toNat_inj]
    omega
  have hask : ∀ c : Char, ((c == '\n') || (g.alike c).any (· == '\n')) = (c == '\n') := by
    intro c
    rw [Bool.eq_iff_iff, Bool.or_eq_true, List.any_eq_true, beq_iff_eq]
    constructor
    · rintro (h | ⟨a, ha, h⟩)
      · exact h
      · rw [beq_iff_eq] at h
        exact eq_newline_of_alike (h ▸ ha)
    · exact .inl
  have hhas : ∀ ask isWord, (CharSet.union (.span '\n'.toNat '\n'.toNat) .empty).has ask isWord
      = fun c => ask (· == '\n') c := by
    intro ask isWord
    funext c
    rw [← funext hspan]
    exact Bool.or_false _
  unfold CharSet.accepts
  dsimp only
  rw [hhas, hhas]
  cases m.ignoreCase <;> cases g <;> simp only [id_eq, hask, Bool.true_bne] <;> rfl

/-- The look behind that `^` is lowered to. -/
def lineStartLook : Node := .look ⟨true, true⟩ notNewline

theorem read?_lineStartLook (g : Grammar) :
    Node.read? g false "(?<![^\\n])".toList = some lineStartLook := by
  cases g <;> decide +kernel

theorem read?_stringStart (g : Grammar) :
    Node.read? g false ['^'] = some (.edge .lineStart) := by
  cases g <;> decide +kernel

/-- The look behind finds the start of the text and the places behind newlines. -/
theorem matcher_lineStartLook (s : Subject) (m : Mode) (d : Direction) (t : Thread) :
    (lineStartLook.matcher s m d t some).isSome ↔ ∀ c, s.before? t.position = some c → c = '\n' := by
  have hset : (notNewline.matcher s m .backward t some).isSome ↔
      ∃ c, s.before? t.position = some c ∧ c ≠ '\n' := by
    rw [notNewline, Node.matcher, Matcher.char, Subject.next?]
    cases s.before? t.position with
    | none => simp
    | some c =>
      rw [Option.map_some]
      dsimp only
      rw [accepts_notNewline]
      by_cases hc : c = '\n' <;> simp [hc]
  simp only [lineStartLook, Node.matcher, if_true]
  cases hm : notNewline.matcher s m .backward t some with
  | some u =>
    rw [hm] at hset
    obtain ⟨c, hc, hne⟩ := hset.1 rfl
    constructor
    · intro h
      cases h
    · exact fun hall => absurd (hall c hc) hne
  | none =>
    rw [hm] at hset
    refine ⟨fun _ c hc => ?_, fun _ => rfl⟩
    by_contra hne
    cases hset.2 ⟨c, hc, hne⟩

end Host

/-! ## Searches of converted patterns -/

open Diglot.Core (LowerOptions lowerAssertion)
open Emitted (WriteOptions writePattern)

variable {lo : LowerOptions} {o : WriteOptions}

/-- The assertion that `^` is lowered to, written and read by the host, holds at a position. -/
def StartsLine (lo : LowerOptions) (o : WriteOptions) (flags : Host.Flags) (text : Array Char)
    (p : Nat) : Prop :=
  ∃ core written node, lowerAssertion ⟨lo, {}, []⟩ .lineStart = .ok core ∧
    writePattern o core = .ok written ∧ Host.Node.read? flags.grammar false written.text = some node ∧
    (node.matcher ⟨flags.grammar, text⟩ flags.mode .forward ⟨p, []⟩ some).isSome

theorem writePattern_lineStart (o : WriteOptions) :
    ∃ w, writePattern o (.behind true (.cls .notNewline)) = .ok w ∧
      w.text = "(?<![^\\n])".toList := by
  rcases o with ⟨strict, target, limit, verbose⟩
  refine ⟨⟨"(?<![^\\n])".toList, if target.hasUnicodeSets then "v" else "u", {}⟩, ?_, rfl⟩
  cases target <;> cbv

theorem writePattern_stringStart (o : WriteOptions) :
    ∃ w, writePattern o (.assertion .stringStart) = .ok w ∧ w.text = ['^'] := by
  rcases o with ⟨strict, target, limit, verbose⟩
  refine ⟨⟨['^'], if target.hasUnicodeSets then "v" else "u", {}⟩, ?_, rfl⟩
  cases target <;> cbv

/-- The starts of lines are those that a strategy tests by hand. -/
theorem startsLine_iff (hm : flags.mode.multiline = false) (hp : p ≤ text.size) :
    StartsLine lo o flags text p ↔
      p = 0 ∨ (lo.singleline = false ∧ text[p - 1]? = some '\n') := by
  cases hs : lo.singleline with
  | true =>
    obtain ⟨w, hw, htext⟩ := writePattern_stringStart o
    have hlower : lowerAssertion ⟨lo, {}, []⟩ .lineStart = .ok (.assertion .stringStart) := by
      simp [lowerAssertion, hs, pure, Except.pure]
    have hholds : (Host.Node.edge .lineStart).matcher ⟨flags.grammar, text⟩ flags.mode .forward
        ⟨p, []⟩ some = if p = 0 then some ⟨p, []⟩ else none := by
      simp [Host.Node.matcher, Host.Subject.holds, hm]
    constructor
    · rintro ⟨core, written, node, hcore, hwritten, hnode, hmatch⟩
      cases hlower.symm.trans hcore
      cases hw.symm.trans hwritten
      rw [htext, Host.read?_stringStart] at hnode
      cases hnode
      rw [hholds] at hmatch
      split at hmatch
      next hp => exact .inl hp
      next => cases hmatch
    · rintro (rfl | ⟨hfalse, -⟩)
      · refine ⟨_, w, _, hlower, hw, by rw [htext, Host.read?_stringStart], ?_⟩
        rw [hholds]
        rfl
      · cases hfalse
  | false =>
    obtain ⟨w, hw, htext⟩ := writePattern_lineStart o
    have hlower : lowerAssertion ⟨lo, {}, []⟩ .lineStart
        = .ok (.behind true (.cls .notNewline)) := by
      simp [lowerAssertion, hs, pure, Except.pure]
    have hbefore : (∀ c, (⟨flags.grammar, text⟩ : Host.Subject).before? p = some c → c = '\n') ↔
        p = 0 ∨ (false = false ∧ text[p - 1]? = some '\n') := by
      unfold Host.Subject.before?
      split
      next hzero => simp [hzero]
      next hzero =>
        have hlt : p - 1 < text.size := by omega
        rw [Array.getElem?_eq_getElem hlt]
        simp [hzero]
    constructor
    · rintro ⟨core, written, node, hcore, hwritten, hnode, hmatch⟩
      cases hlower.symm.trans hcore
      cases hw.symm.trans hwritten
      rw [htext, Host.read?_lineStartLook] at hnode
      cases hnode
      exact hbefore.1 ((Host.matcher_lineStartLook _ _ _ _).1 hmatch)
    · intro h
      refine ⟨_, w, _, hlower, hw, by rw [htext, Host.read?_lineStartLook], ?_⟩
      exact (Host.matcher_lineStartLook _ _ _ _).2 (hbefore.2 h)

/-- A strategy accepts the places where its anchor holds. -/
theorem accepts_iff_holds (hm : flags.mode.multiline = false) (a : Anchor) {start : Nat}
    (hp : p ≤ text.size) : (a.strategy lo.singleline).accepts text start p = true ↔
      a.Holds (StartsLine lo o flags text) start p := by
  cases a with
  | searchStart => simp [Anchor.strategy, Strategy.accepts, Anchor.Holds]
  | notSearchStart => simp [Anchor.strategy, Strategy.accepts, Anchor.Holds]
  | lineOrSearchStart =>
    rw [Anchor.Holds, startsLine_iff hm hp, Anchor.strategy]
    cases lo.singleline <;> simp [Strategy.accepts, or_assoc]

/-- The core tree of a source tree among the definitions of a pattern. -/
def Core.lowerTree (o : LowerOptions) (p : Source.Pattern) (tree : Source.Node) :
    Except Error Core.Node :=
  let scope : Core.Scope :=
    { ignoreCase := p.flags.ignoreCase, dotAll := p.flags.dotAll, topLevel := true }
  let e : Core.Lowering := ⟨o, p.flags, Core.definitions scope [] p.root⟩
  (Core.lowerNode e (Core.lowerCall e e.definitions.length) {} scope tree).run' false

/-- What is lowered is the pattern without the anchor that the strategy stands for. -/
theorem removes_of_lower {o : LowerOptions} {p : Source.Pattern} {q : Core.Pattern}
    (h : Core.Pattern.lower o p = .ok q) (hs : q.strategy = some s) :
    ∃ (a : Anchor) (stripped : Source.Node), a.strategy o.singleline = s ∧
      Source.Removes a p.root stripped ∧ Core.lowerTree o p stripped = .ok q.root := by
  unfold Core.Pattern.lower at h
  dsimp only at h
  split at h
  · cases h
  · obtain ⟨root, hroot, h⟩ := exists_of_bind_eq_ok h
    cases h
    have hsplit : p.root.splitStrategy o.singleline = (some s, (p.root.splitStrategy o.singleline).2) :=
      Prod.ext hs rfl
    obtain ⟨a, ha, hr⟩ := Source.Node.removes_of_splitStrategy hsplit
    exact ⟨a, _, ha, hr, hroot⟩

/-- A written pattern does not make `^` match at the starts of lines. -/
theorem multiline_of_finish {s : Settings} {strategy : Option Strategy} {root : Core.Node}
    {c : Conversion} (hw : writePattern s.writing root = .ok w) (h : s.finish strategy w = .ok c) :
    (Host.Flags.ofLetters c.flags.toList).mode.multiline = false := by
  obtain ⟨d, -, h⟩ := exists_of_bind_eq_ok h
  split at h
  · cases h
  · cases h
    obtain ⟨text, -, hw⟩ := exists_of_bind_eq_ok hw
    cases hw
    show (s.hostFlags _).toList.contains 'm' = false
    unfold Settings.hostFlags
    simp only [String.toList_append, List.contains_append, Bool.or_eq_false_iff]
    refine ⟨⟨?_, ?_⟩, ⟨?_, ?_⟩, ?_⟩ <;> split <;> decide

theorem strategy_of_finish {s : Settings} {strategy : Option Strategy} {c : Conversion}
    (h : s.finish strategy w = .ok c) (hs : strategy.isSome) :
    ∃ e, c.emulation = some e ∧ e.strategy = strategy := by
  obtain ⟨d, -, h⟩ := exists_of_bind_eq_ok h
  split at h
  · cases h
  · cases h
    show ∃ e, s.emulation? strategy d = some e ∧ _
    unfold Settings.emulation?
    dsimp only
    rw [if_neg (by cases strategy <;> simp_all)]
    exact ⟨_, rfl, rfl⟩

/-- The plan and the regular expression of an expression for a conversion with a plan. -/
theorem plan_of_emulated {c : Conversion} {e : Emulation} (he : c.emulation = some e)
    (hx : Expression.ofConversion c = .ok x) (hr : x.prepare.2 = .ok r) :
    x.plan = e ∧ Expression.compile c.pattern c.flags = .ok r := by
  rw [Expression.ofConversion, he] at hx
  obtain ⟨names, -, hx⟩ := exists_of_bind_eq_ok hx
  dsimp only at hx
  split at hx
  · -- compilation was put off
    cases hx
    refine ⟨rfl, ?_⟩
    unfold Expression.prepare at hr
    dsimp only at hr
    split at hr
    next hc =>
      cases hr
      exact hc
    next => cases hr
  · obtain ⟨regex, hregex, hx⟩ := exists_of_bind_eq_ok hx
    cases hx
    refine ⟨rfl, ?_⟩
    cases hc : Expression.compile c.pattern c.flags with
    | error e =>
      rw [hc] at hregex
      cases hregex
    | ok found =>
      rw [hc] at hregex
      cases hregex
      exact hr

/-- A search of a prepared expression. -/
theorem findAt_of_prepare (hr : x.prepare.2 = .ok r) (text : String) {i : Nat}
    (hi : i ≤ text.toList.length) :
    (x.findAt text (Text.offsetOf text.toList i)).2
      = .ok ((x.plan.find text.toList.toArray (r.search text.toList.toArray) i).map
          (x.captures (Text.offsetOf text.toList))) := by
  have hkeep : ∀ x' y, x.prepare = (x', y) → x'.plan = x.plan ∧
      x'.captures = x.captures := by
    intro x' y hp
    unfold Expression.prepare at hp
    split at hp
    · cases hp
      exact ⟨rfl, rfl⟩
    · split at hp
      · cases hp
        exact ⟨rfl, rfl⟩
      · cases hp
        exact ⟨rfl, rfl⟩
  unfold Expression.findAt
  rw [Text.indexAt?_offsetOf hi]
  cases hp : x.prepare with
  | mk x' y =>
    rw [hp] at hr
    cases hr
    obtain ⟨hplan, hcaptures⟩ := hkeep x' _ hp
    simp only [Option.bind_some, Expression.search, hplan, hcaptures]

/-- **A search finds the first match whose start satisfies the anchor that was taken off.** The
regular expression is that of the pattern without its leading anchor. From a position of a text on,
the first match of it is reported whose start satisfies the anchor: `\G` where the search starts,
`(?!\G)` anywhere else, `(?:^|\G)` there or where the assertion holds that `^` is lowered to. -/
theorem findAt_isFirst {o : Options} {pattern : String} {st : Stages} {s : Strategy}
    (h : Stages.ofSource o pattern = .ok st) (hs : st.core.strategy = some s) {x : Expression}
    (hx : Expression.ofConversion st.result = .ok x) {r : Regex} (hr : x.prepare.2 = .ok r)
    (text : String) {i : Nat} (hi : i ≤ text.toList.length) :
    ∃ (settings : Settings) (a : Anchor) (stripped : Source.Node) (found : Option Found),
      o.normalize = .ok settings ∧ Source.Removes a st.source.root stripped ∧
      Core.lowerTree settings.lowering st.source stripped = .ok st.core.root ∧
      Expression.compile st.result.pattern st.result.flags = .ok r ∧
      IsFirst (r.matchAt text.toList.toArray)
        (a.Holds (StartsLine settings.lowering settings.writing r.flags text.toList.toArray) i)
        text.toList.length i found ∧
      (x.findAt text (Text.offsetOf text.toList i)).2
        = .ok (found.map (x.captures (Text.offsetOf text.toList))) := by
  obtain ⟨settings, hsettings, -, -, -, -, hlower, hwrite, hfinish⟩ := exists_of_stages h
  obtain ⟨a, stripped, rfl, hremoves, htree⟩ := removes_of_lower hlower hs
  obtain ⟨e, he, hstrategy⟩ := strategy_of_finish hfinish (by rw [hs]; rfl)
  obtain ⟨hplan, hcompile⟩ := plan_of_emulated he hx hr
  have hflags : r.flags = Host.Flags.ofLetters st.result.flags.toList := by
    have hcompile' := hcompile
    unfold Expression.compile at hcompile'
    split at hcompile'
    next found hfound =>
      cases hcompile'
      obtain ⟨root, -, hroot⟩ := Option.bind_eq_some_iff.1 hfound
      cases hroot
      rfl
    next => cases hcompile'
  have hmultiline : r.flags.mode.multiline = false := by
    rw [hflags]
    exact multiline_of_finish hwrite hfinish
  refine ⟨settings, a, stripped, _, hsettings, hremoves, htree, hcompile, ?_,
    findAt_of_prepare hr text hi⟩
  rw [hplan, Emulation.find, hstrategy, hs]
  have hsize : i ≤ text.toList.toArray.size := by simpa using hi
  have hfirst := isFirst_find (exact_search r text.toList.toArray)
    (a.strategy settings.lowering.singleline) hsize
  rw [List.size_toArray] at hfirst
  exact hfirst.congr fun p hp => accepts_iff_holds hmultiline a (by simpa using hp)

/-- A pattern with the anchor `(?:^|\G)`, in a text with a line that begins after the start of the
search. -/
theorem findAt_isFirst_example : ∃ (st : Stages) (x : Expression) (r : Regex),
    Stages.ofSource {} "(?:^|\\G)a" = .ok st ∧ st.core.strategy = some .lineOrSearchStart ∧
    Expression.ofConversion st.result = .ok x ∧ x.prepare.2 = .ok r ∧
    ∃ (a : Anchor) (stripped : Source.Node) (found : Option Found),
      Source.Removes a st.source.root stripped ∧
      IsFirst (r.matchAt "ba\na".toList.toArray)
        (a.Holds (StartsLine {} {} r.flags "ba\na".toList.toArray) 0) 4 0 found ∧
      (x.findAt "ba\na" 0).2 = .ok (found.map (x.captures (Text.offsetOf "ba\na".toList))) := by
  obtain ⟨st, hst, hstrategy, x, hx, r, hr⟩ : ∃ st, Stages.ofSource {} "(?:^|\\G)a" = .ok st ∧
      st.core.strategy = some .lineOrSearchStart ∧
      ∃ x, Expression.ofConversion st.result = .ok x ∧ ∃ r, x.prepare.2 = .ok r := by
    decide +kernel
  obtain ⟨settings, a, stripped, found, hsettings, hremoves, -, -, hfirst, hfind⟩ :=
    findAt_isFirst hst hstrategy hx hr "ba\na" (i := 0) (by decide)
  cases hsettings
  exact ⟨st, x, r, hst, hstrategy, hx, hr, a, stripped, found, hremoves, hfirst, hfind⟩

end Diglot
