import Diglot.Expression
import Diglot.Proofs.Emitted.Chunk
import Diglot.Proofs.Host.UnfoldedReading

/-!
# Captures of host patterns

The captures of an expression that reports the host's matches as they are come from the scanner,
which does not know in which grammar the host reads the pattern. In a pattern that the host accepts
the scanner finds the captures of the host. It fails only where a bracket in a class stands for
itself, so that it looks for the end of the class in vain; with flag `v` there are none such. It
gives names as they are written, and the host reads the escapes in them (`native_captures`).
-/

namespace Diglot

open Host

namespace Emitted

variable {text : List Char} {ts : List Host.Token} {us : List Token} {g : Grammar} {x : Dialect}
  {position : Nat}

/-! ## What the scanner refuses -/

/-- **The scanner divides a pattern that the host reads exactly if as many brackets open in it as
close.** -/
theorem scanFrom_ok_iff (hx : x.Suits g) (hts : tokensFrom? x 0 text = some ts)
    (hchain : ts.IsChain Host.Token.Precedes) (hnumber : ∀ n, .numbered n ∈ ts → n < 2 ^ 64)
    (position : Nat) : (∃ us, scanFrom position text = .ok us) ↔ bracketExcess text = 0 := by
  induction hlength : text.length using Nat.strongRecOn generalizing text ts position with
  | ind length ih =>
    cases text with
    | nil => exact iff_of_true ⟨[], by rw [scanFrom]⟩ rfl
    | cons c cs =>
      obtain ⟨v, rest, t, later, rfl, rfl, hv, hlater⟩ := exists_front hx hts
      by_cases hclass : ∀ negated, t = .classOpen negated → ∃ m, classLength 0 0 (v ++ rest) = .ok m
      · obtain ⟨w, tail, front, after, vs, htext, hw, hfront, -, hvs, hreads, htail, hexcess⟩ :=
          exists_chunk_front hx hv hlater hchain (fun n hn => hnumber n (hn ▸ List.mem_cons_self)) hclass
        rw [hfront] at hchain hnumber
        rw [htext] at hlength ⊢
        have hshort : tail.length < length := by
          have hpos := List.length_pos_iff.2 hw
          rw [← hlength, List.length_append]
          omega
        have hnext := ih _ hshort htail (List.isChain_append.1 hchain).2.1
          (fun n hn => hnumber n (List.mem_append_right _ hn)) (position + w.length) rfl
        rw [hexcess, ← hnext, ← hvs, scanFrom_of_reads hreads]
        cases scanFrom (position + (textOf vs).length) tail <;> simp [Except.map]
      · -- the scanner does not get out of the class
        obtain ⟨negated, hclass⟩ := Classical.not_forall.1 hclass
        obtain ⟨rfl, hfails⟩ := Classical.not_imp.1 hclass
        obtain ⟨v', hcons, hpass⟩ := exists_of_classOpen hv
        obtain ⟨rfl, rfl⟩ := List.cons.inj hcons
        refine iff_of_false ?_ fun hzero => hfails ?_
        · rintro ⟨us, hus⟩
          exact hfails (classLength_of_scanFrom hus)
        · rw [bracketExcess_open, hpass.excess] at hzero
          rw [hpass.length]
          exact (exists_classLength hx hlater).2.2 0 _ rfl hzero

/-! ## Names -/

/-- A name without escapes is read as it is written. -/
theorem eq_of_nameForm {v name : List Char} (h : NameForm v name) (hv : '\\' ∉ v) : v = name := by
  induction h with
  | nil => rfl
  | escape => simp at hv
  | char hc hu hform ih => rw [ih fun hmem => hv (List.mem_cons_of_mem _ hmem)]

theorem Chunk.names {w rest : List Char} (h : Chunk g w rest ts us) :
    List.Forall₂ (Option.Rel NameForm) (us.filterMap (·.captureName?)) (Host.captureNames ts) := by
  cases h with
  | ordinary hts hus =>
    have hnone : us.filterMap (·.captureName?) = [] := by
      refine List.filterMap_eq_nil_iff.2 fun u hu => ?_
      have hk := hus u hu
      unfold Token.captureName?
      split
      next heq => rw [heq] at hk; cases hk
      next => rfl
    have hnone' : Host.captureNames ts = [] := by
      clear * - hts
      induction ts with
      | nil => rfl
      | cons t ts ih =>
        obtain ⟨ht, hts⟩ := List.forall_mem_cons.1 hts
        rw [captureNames_ordinary ht, ih hts]
    rw [hnone, hnone']
    exact .nil
  | opens ha hc hu =>
    rw [captureNames_opens hc]
    rcases hu with hu | hu <;> simp [Token.captureName?, hu, Host.captureNames]
  | captures hname => exact .cons hname .nil
  | atomic | closes | refers => exact .nil

/-- **The scanner finds the captures that the host reads, and the host reads their names.** -/
theorem names_of_scanFrom (hx : x.Suits g) (hts : tokensFrom? x 0 text = some ts)
    (hchain : ts.IsChain Host.Token.Precedes) (hus : scanFrom position text = .ok us) :
    List.Forall₂ (Option.Rel NameForm) (us.filterMap (·.captureName?)) (Host.captureNames ts) := by
  induction hlength : text.length using Nat.strongRecOn generalizing text ts position us with
  | ind length ih =>
    by_cases hne : text = []
    · subst hne
      rw [tokensFrom?_nil] at hts
      rw [scanFrom] at hus
      cases hts
      cases hus
      exact .nil
    · obtain ⟨w, rest, front, later, vs, later', position', rfl, hw, rfl, rfl, hchunk, hlater,
        hlater'⟩ := exists_chunk hx hne hts hchain hus
      have hshort : rest.length < length := by
        have hpos := List.length_pos_iff.2 hw
        rw [← hlength, List.length_append]
        omega
      rw [List.filterMap_append, captureNames_append]
      exact List.rel_append hchunk.names
        (ih _ hshort hlater (List.isChain_append.1 hchain).2.1 hlater' rfl)

end Emitted

/-! ## Expressions -/

namespace Expression

open Emitted (scan bracketExcess)

variable {source flags : String} {r : Regex}

theorem read?_of_compile (hr : compile source flags = .ok r) :
    Node.read? (Flags.ofLetters flags.toList).grammar false source.toList = some r.root := by
  unfold compile at hr
  split at hr <;> cases hr
  next hr =>
    obtain ⟨root, hroot, hr⟩ := Option.bind_eq_some_iff.1 hr
    cases hr
    exact hroot

theorem native_eq (hr : compile source flags = .ok r) :
    native source flags = (scan source.toList).map fun us =>
      let names := (us.filterMap (·.captureName?)).map (·.map String.ofList)
      { source, flags, names, emulation := none, visible := List.range' 1 names.length, regex := some r } := by
  rw [native, hr, captureNames, Emitted.captureNames]
  cases scan source.toList <;> rfl

/-- Names that are shown as they are written. -/
def WritesNames : List (Option String) → List (Option (List Char)) → Prop :=
  List.Forall₂ (Option.Rel fun s name => NameForm s.toList name)

theorem WritesNames.of_forall₂ {titles names : List (Option (List Char))}
    (h : List.Forall₂ (Option.Rel NameForm) titles names) :
    WritesNames (titles.map (·.map String.ofList)) names := by
  refine List.forall₂_map_left_iff.2 (h.imp fun title name hrel => ?_)
  cases hrel with
  | none => exact .none
  | some hname => exact .some (by rwa [String.toList_ofList])

/-- Only escapes make a difference. -/
theorem WritesNames.eq {shown : List (Option String)} {names : List (Option (List Char))}
    (h : WritesNames shown names) (hplain : ∀ s, some s ∈ shown → '\\' ∉ s.toList) :
    shown = names.map (·.map String.ofList) := by
  induction h with
  | nil => rfl
  | cons hrel h ih =>
    rw [List.map_cons, ← ih fun s hs => hplain s (List.mem_cons_of_mem _ hs)]
    cases hrel with
    | none => rfl
    | some hname =>
      rw [Option.map_some, ← Emitted.eq_of_nameForm hname (hplain _ List.mem_cons_self),
        String.ofList_toList]

/-- An expression has the captures of its compiled pattern. -/
structure ShowsCaptures (x : Expression) (r : Regex) : Prop where
  visible : x.visible = r.root.captures.map (·.1)
  written : WritesNames x.names (r.root.captures.map (·.2))
  names : (∀ s, some s ∈ x.names → '\\' ∉ s.toList) →
    x.names = r.root.captures.map (·.2.map String.ofList)

/-- **An expression for a pattern that the host accepts shows the captures of the host.** There is
one exactly if as many brackets open in the pattern as close, which is always so with flag `v`. -/
theorem native_captures (hflags : 'u' ∈ flags.toList ∨ 'v' ∈ flags.toList)
    (hlength : source.length < 2 ^ 64) (hr : compile source flags = .ok r) :
    ((∃ x, native source flags = .ok x) ↔ bracketExcess source.toList = 0) ∧
      ('v' ∈ flags.toList → bracketExcess source.toList = 0) ∧
      ∀ x, native source flags = .ok x → x.ShowsCaptures r := by
  have hg : (Flags.ofLetters flags.toList).grammar.isStrict := by
    unfold Flags.ofLetters
    dsimp only
    split
    · rfl
    next hv =>
      rw [if_pos (List.contains_iff_mem.2 (hflags.resolve_right fun hmem => hv (by simpa using hmem)))]
      rfl
  obtain ⟨x, ts, s, hx, hts, hs, hroot⟩ := exists_of_read? hg (read?_of_compile hr)
  have hchain := Reading.isChain_precedes hs
  have hnumber : ∀ n, .numbered n ∈ ts → n < 2 ^ 64 := by
    intro n hn
    have hle := Reading.le_of_numbered_mem hs hn
    have hnames := List.length_filterMap_le Host.Token.captureName? ts
    have htokens := length_tokensFrom?_le hts
    rw [String.length_toList] at htokens
    exact Nat.lt_of_le_of_lt (hle.trans (hnames.trans htokens)) hlength
  rw [native_eq hr]
  refine ⟨?_, fun hv => ?_, fun y hy => ?_⟩
  · rw [← Emitted.scanFrom_ok_iff hx hts hchain hnumber 0, ← scan]
    cases scan source.toList <;> simp [Except.map]
  · have hsets : (Flags.ofLetters flags.toList).grammar = .sets := if_pos (by simpa using hv)
    have hdepth := (Emitted.exists_classLength hx hts).2.1 hsets
    have hclasses : s.classes.length = ts.foldl Token.classDepth 0 := Reading.length_classes_foldlM hs
    rw [← hclasses, (Reading.of_finish hroot).1] at hdepth
    simpa using hdepth
  · cases hus : scan source.toList with
    | error e => rw [hus] at hy; cases hy
    | ok us =>
      rw [hus] at hy
      cases hy
      have hcaptures := captures_of_finish hs hroot
      have hnames := Emitted.names_of_scanFrom hx hts hchain hus
      have hwritten : r.root.captures.map (·.2) = Host.captureNames ts := by
        rw [hcaptures, numberedNames, List.map_map]
        exact List.zipIdx_map_fst 1 _
      have hshown := WritesNames.of_forall₂ hnames
      rw [← hwritten] at hshown
      refine ⟨?_, hshown, fun hplain => ?_⟩
      · dsimp only
        rw [List.length_map, hnames.length_eq, hcaptures, numberedNames, List.map_map]
        exact (List.zipIdx_map_snd 1 _).symm
      · exact (hshown.eq hplain).trans List.map_map

theorem native_captures_named : ∃ x r, native "(?<a>x)(y)[[z]]" "v" = .ok x ∧ x.ShowsCaptures r := by
  obtain ⟨r, hr⟩ : ∃ r, compile "(?<a>x)(y)[[z]]" "v" = .ok r := by decide +kernel
  obtain ⟨hexists, hsets, hshows⟩ := native_captures (.inr (by decide)) (by decide) hr
  obtain ⟨x, hx⟩ := hexists.2 (hsets (by decide))
  exact ⟨x, r, hx, hshows x hx⟩

/-- A bracket that stands for itself keeps an expression from being made, and a name is shown with
its escapes. -/
theorem native_bracket_and_escape :
    ((compile "[[]" "u").map (·.root.captures) = .ok [] ∧
      (native "[[]" "u").map (·.names) = .error (.malformed 3 .unterminatedClass)) ∧
    ((compile "(?<\\u0061>x)" "u").map (·.root.captures) = .ok [(1, some ['a'])] ∧
      (native "(?<\\u0061>x)" "u").map (·.names) = .ok [some "\\u0061"]) := by
  decide +kernel

end Expression

end Diglot
