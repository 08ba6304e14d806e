import Diglot.Proofs.Emitted.Rereading
import Diglot.Proofs.Outcome
import Diglot.Proofs.Reduction.Possessive

/-!
# What grouping gives

Grouping the possessive quantifiers of a pattern keeps its tokens: each possessive quantifier loses
its sign, an atomic group closes after it, and opens before what the quantifier repeats
(`groupPossessive_exact`). That is so for every pattern that can be grouped, also for one that is
not balanced. The groups lie in each other as they should if each quantifier follows something that
can be repeated.
-/

namespace Diglot.Reduction

open Emitted

variable {starts : List Nat} {openers : Nat → List Nat} {k q o : Nat}
  {ts us before after : List Token} {t u : Token} {follow : List Char} {target : Nat → Nat}

/-! ## Grouped tokens -/

/-- What a token of a grouped pattern is there for. -/
inductive Mark where
  /-- A token of the pattern; a possessive quantifier is without its sign. -/
  | kept
  /-- Opens the atomic group for the quantifier at index `q`. -/
  | opens (q : Nat)
  /-- Closes the atomic group for the quantifier at index `q`. -/
  | closes (q : Nat)
  deriving DecidableEq, Repr

/-- What comes in the place of the token at index `k`. -/
def groupedToken (k : Nat) (t : Token) : List (Token × Mark) :=
  if isPossessive t then [(greedyToken t, .kept), (closeToken, .closes k)] else [(t, .kept)]

/-- The openers of the atomic groups for quantifiers. -/
def openedFor (qs : List Nat) : List (Token × Mark) :=
  qs.map fun q => (atomicToken, .opens q)

/-- The tokens from index `k` on with their groups, if those for the quantifiers `openers i` open
before index `i`. -/
def groupedFrom (openers : Nat → List Nat) : Nat → List Token → List (Token × Mark)
  | _, [] => []
  | k, t :: ts => openedFor (openers k) ++ (groupedToken k t ++ groupedFrom openers (k + 1) ts)

/-- The indices of the possessive quantifiers. -/
def possessives (ts : List Token) : List Nat :=
  (ts.zipIdx.filter (isPossessive ·.1)).map (·.2)

/-- The quantifiers whose target begins at index `k`. -/
def openersOf (target : Nat → Nat) (ts : List Token) (k : Nat) : List Nat :=
  (possessives ts).filter (target · = k)

/-- The tokens with an atomic group for each possessive quantifier, which opens before the index
that `target` says and closes after the quantifier. -/
def grouped (target : Nat → Nat) (ts : List Token) : List (Token × Mark) :=
  groupedFrom (openersOf target ts) 0 ts

/-- What begins at index `k` is what comes right before index `q`. -/
def TargetAt (ts : List Token) (q k : Nat) : Prop :=
  ∃ before target after, ts = before ++ (target ++ after) ∧ Repeatable target ∧
    before.length = k ∧ k + target.length = q

/-- Whether a token of the kind ends something that can be repeated. -/
def endsTarget : Kind → Bool
  | .atom | .backreference _ | .close => true
  | _ => false

/-- Every possessive quantifier follows a character, a reference or a group. -/
def FollowsTargets (ts : List Token) : Prop :=
  ts.IsChain fun t u => isPossessive u = true → endsTarget t.kind = true

instance (ts : List Token) : Decidable (FollowsTargets ts) :=
  inferInstanceAs (Decidable (ts.IsChain _))

/-- What is to be said of a grouped draft. -/
structure ExactGrouping (target : Nat → Nat) (ts : List Token) (p d : Draft) : Prop where
  targets : ∀ q ∈ possessives ts, TargetAt ts q (target q)
  scanned : scan d.text = .ok ((grouped target ts).map (·.1))
  greedy : ∀ t ∈ (grouped target ts).map (·.1), isPossessive t = false
  captures : captureNames d.text = captureNames p.text
  layout : d.layout = p.layout
  again : groupPossessive d = .ok d
  matched : FollowsTargets ts → ∀ o q, (grouped target ts)[o]? = some (atomicToken, .opens q) →
    ∃ c, (grouped target ts)[c]? = some (closeToken, .closes q) ∧
      matchingClose ((grouped target ts).map (·.1)) o = some c

theorem groupedToken_of_not (h : isPossessive t = false) : groupedToken k t = [(t, .kept)] :=
  if_neg (by simp [h])

theorem groupedToken_of_possessive (h : isPossessive t) :
    groupedToken k t = [(greedyToken t, .kept), (closeToken, .closes k)] :=
  if_pos h

theorem groupedFrom_append (openers : Nat → List Nat) (k : Nat) (ts us : List Token) :
    groupedFrom openers k (ts ++ us)
      = groupedFrom openers k ts ++ groupedFrom openers (k + ts.length) us := by
  induction ts generalizing k with
  | nil => rfl
  | cons t ts ih =>
    rw [List.cons_append, groupedFrom, ih, groupedFrom, List.length_cons, Nat.add_right_comm]
    simp [Nat.add_assoc]

/-- The text of the grouped tokens is the one that is put together token by token. -/
theorem textOf_groupedFrom (h : ∀ i, starts.count i = (openers i).length) :
    textOf ((groupedFrom openers k ts).map (·.1)) = possessiveTextFrom starts k ts := by
  have hopened : ∀ i, textOf ((openedFor (openers i)).map (·.1)) = openAtomics (starts.count i) := by
    intro i
    rw [h, openAtomics, openedFor, List.map_map, ← List.map_const, textOf, List.flatMap_map]
    exact List.flatMap_def ..
  induction ts generalizing k with
  | nil => rfl
  | cons t ts ih =>
    rw [groupedFrom, List.map_append, List.map_append, textOf_append, textOf_append, hopened, ih,
      ← List.singleton_append, possessiveTextFrom_append, possessiveTextFrom_singleton,
      List.length_singleton, ← List.append_assoc]
    congr 1
    by_cases hp : isPossessive t
    · rw [groupedToken_of_possessive hp, possessiveText_of_possessive hp]
      simp
    · have hp : isPossessive t = false := by simpa using hp
      rw [groupedToken_of_not hp, possessiveText_of_not hp]
      simp

theorem not_possessive_of_mem (h : t ∈ (groupedFrom openers k ts).map (·.1)) :
    isPossessive t = false := by
  induction ts generalizing k with
  | nil => cases h
  | cons u ts ih =>
    rw [groupedFrom, List.map_append, List.map_append, List.mem_append, List.mem_append] at h
    rcases h with h | h | h
    · rw [openedFor, List.map_map] at h
      obtain ⟨q, -, rfl⟩ := List.mem_map.1 h
      rfl
    · by_cases hp : isPossessive u
      · rw [groupedToken_of_possessive hp] at h
        simp only [List.map_cons, List.map_nil, List.mem_cons, List.not_mem_nil, or_false] at h
        rcases h with rfl | rfl <;> rfl
      · have hp : isPossessive u = false := by simpa using hp
        rw [groupedToken_of_not hp] at h
        rwa [List.mem_singleton.1 h]
    · exact ih h

theorem captures_groupedFrom :
    ((groupedFrom openers k ts).map (·.1)).filterMap (·.captureName?)
      = ts.filterMap (·.captureName?) := by
  induction ts generalizing k with
  | nil => rfl
  | cons t ts ih =>
    have hopened : ((openedFor (openers k)).map (·.1)).filterMap (·.captureName?) = [] := by
      rw [openedFor, List.map_map]
      exact List.filterMap_eq_nil_iff.2 fun u hu => by
        obtain ⟨q, -, rfl⟩ := List.mem_map.1 hu
        rfl
    have htoken : ((groupedToken k t).map (·.1)).filterMap (·.captureName?)
        = [t].filterMap (·.captureName?) := by
      by_cases hp : isPossessive t
      · have hkind : t.kind = .quantifier true := of_decide_eq_true hp
        simp [groupedToken_of_possessive hp, Token.captureName?, hkind, greedyToken, closeToken]
      · rw [groupedToken_of_not (by simpa using hp)]
        rfl
    rw [groupedFrom, List.map_append, List.map_append, List.filterMap_append, List.filterMap_append,
      hopened, htoken, ih, List.nil_append, ← List.filterMap_append]
    rfl

/-! ## Grouped tokens read back -/

/-- Something opens before what is put in the place of a token. -/
theorem renders_opened (h : Renders ts us follow) (hts : ts ≠ []) :
    Renders ts (atomicToken :: us) follow where
  empty hnil := absurd hnil hts
  reads z hz hend := ⟨sound_atomic _ fun _ _ => rfl, h.reads z hz hend⟩
  coincide z _ := .of_breaks (breaks_cons (by decide) _)

/-- A possessive quantifier loses its sign, and the group around it closes. -/
theorem renders_greedy (h : t.ReadsBefore follow) (hp : isPossessive t) :
    Renders [t] [greedyToken t, closeToken] follow := by
  obtain ⟨s, hs, htext⟩ := h.exists_isSign (of_decide_eq_true hp)
  have hgreedy : greedyToken t = ⟨.quantifier false, s⟩ := by
    rw [greedyToken, htext, List.dropLast_concat]
  have hsound := sound_sign hs .greedy
  rw [suffixText, List.append_nil] at hsound
  rw [hgreedy]
  refine ⟨by simp, fun z _ _ => ⟨hsound _ fun c hc => ?_, readsBefore_closeToken _, trivial⟩,
    fun z _ => ⟨s, '+' :: follow, ')' :: z, ?_, ?_, breaks_cons (by decide) _⟩⟩
  · cases hc
    rfl
  · simp [htext]
  · simp [closeToken]

/-- **The grouped tokens are what scanning their text gives.** -/
theorem renders_groupedFrom (h : Reads ts follow) :
    Renders ts ((groupedFrom openers k ts).map (·.1)) follow := by
  induction ts generalizing k with
  | nil => exact .nil
  | cons t ts ih =>
    have htoken : Renders [t] ((groupedToken k t).map (·.1)) (textOf ts ++ follow) := by
      by_cases hp : isPossessive t
      · rw [groupedToken_of_possessive hp]
        exact renders_greedy h.1 hp
      · rw [groupedToken_of_not (by simpa using hp)]
        exact renders_same h.1
    have hopened : ∀ qs, Renders [t] ((openedFor qs ++ groupedToken k t).map (·.1))
        (textOf ts ++ follow) := by
      intro qs
      induction qs with
      | nil => exact htoken
      | cons q qs ih => exact renders_opened ih (List.cons_ne_nil t [])
    rw [groupedFrom, ← List.append_assoc, List.map_append]
    exact (hopened (openers k)).append (ih h.2) h.2

/-! ## Targets -/

theorem exists_append_of_getElem? {i : Nat} (h : ts[i]? = some t) :
    ∃ before after, ts = before ++ t :: after ∧ before.length = i := by
  obtain ⟨hlt, rfl⟩ := List.getElem?_eq_some_iff.1 h
  refine ⟨ts.take i, ts.drop (i + 1), ?_, List.length_take_of_le (Nat.le_of_lt hlt)⟩
  rw [← List.drop_eq_getElem_cons hlt, List.take_append_drop]

theorem targetAt_of_targetStart (h : targetStart ts q = .ok k) : TargetAt ts q k := by
  cases q with
  | zero => cases h
  | succ i =>
    cases hi : ts[i]? with
    | none => rw [targetStart, hi] at h; cases h
    | some t =>
      rw [targetStart, hi] at h
      dsimp only at h
      obtain ⟨before, after, rfl, rfl⟩ := exists_append_of_getElem? hi
      split at h
      next hc =>
        split at h
        next start hstart =>
          cases h
          obtain ⟨outer, opener, body, rfl, ho, hbody, rfl⟩ := exists_of_matchingOpen hc hstart
          exact ⟨outer, opener :: (body ++ [t]), after, by simp, .group ho hc hbody, rfl,
            by simp; omega⟩
        next => cases h
      next hc =>
        cases h
        exact ⟨before, [t], after, rfl, .single hc, rfl, rfl⟩

theorem mem_possessives : q ∈ possessives ts ↔ ∃ t, ts[q]? = some t ∧ isPossessive t := by
  simp [possessives, List.mem_zipIdx_iff_getElem?]

theorem nodup_possessives (ts : List Token) : (possessives ts).Nodup := by
  have hsub : (possessives ts).Sublist (ts.zipIdx.map (·.2)) := List.filter_sublist.map _
  refine hsub.nodup ?_
  rw [List.zipIdx_map_snd]
  exact List.nodup_range'

/-- The indices that are found are those at which the targets begin. -/
theorem exists_of_targetStarts (h : targetStarts ts = .ok starts) :
    ∃ target : Nat → Nat, starts = (possessives ts).map target ∧
      ∀ q ∈ possessives ts, TargetAt ts q (target q) := by
  let target (q : Nat) : Nat := (targetStart ts q).toOption.getD 0
  obtain ⟨rfl, hall⟩ := eq_map_of_mapM (g := fun x => target x.2) (fun x k hk => by
    simp [target, hk, Except.toOption]) h
  refine ⟨target, by simp [possessives], fun q hq => ?_⟩
  obtain ⟨x, hx, rfl⟩ := List.mem_map.1 hq
  exact targetAt_of_targetStart (hall x hx)

theorem length_openersOf (target : Nat → Nat) (ts : List Token) (k : Nat) :
    ((possessives ts).map target).count k = (openersOf target ts k).length := by
  rw [List.count_eq_countP, List.countP_map, openersOf, ← List.countP_eq_length_filter]
  rfl

theorem mem_openersOf {target : Nat → Nat} :
    q ∈ openersOf target ts k ↔ q ∈ possessives ts ∧ target q = k := by
  simp [openersOf]

/-! ## Groups that lie in each other -/

/-- A quantifier has one target. -/
theorem TargetAt.start_unique {l : Nat} (hk : TargetAt ts q k) (hl : TargetAt ts q l) : k = l := by
  obtain ⟨before, us, after, rfl, hus, rfl, rfl⟩ := hk
  obtain ⟨before', us', after', heq, hus', rfl, hq⟩ := hl
  have hfound := targetStart_repeatable hus before after
  rw [heq, ← hq, targetStart_repeatable hus'] at hfound
  exact (Except.ok.inj hfound).symm

theorem endsTarget_of_isOpen {k : Kind} (h : k.isOpen) : endsTarget k = false := by
  cases k <;> simp_all [Kind.isOpen, endsTarget]

/-- What comes before a possessive quantifier ends something. -/
theorem FollowsTargets.endsTarget_eq (h : FollowsTargets ts) (hts : ts = before ++ t :: u :: after)
    (hu : isPossessive u) : endsTarget t.kind = true := by
  subst hts
  exact (List.isChain_cons_cons.1 (List.isChain_append.1 h).2.1).1 hu

theorem FollowsTargets.not_possessive (h : FollowsTargets ts) (hts : ts = before ++ t :: after)
    (ht : endsTarget t.kind = false) : ∀ u ∈ after.head?, isPossessive u = false := by
  intro u hu
  obtain ⟨rest, rfl⟩ := List.head?_eq_some_iff.1 hu
  by_contra hp
  have hends := h.endsTarget_eq hts (by simpa using hp)
  rw [ht] at hends
  cases hends

theorem mem_possessives_append (hts : ts = before ++ (us ++ after)) :
    before.length + us.length ∈ possessives ts ↔ ∃ u rest, after = u :: rest ∧ isPossessive u := by
  rw [mem_possessives, hts, ← List.append_assoc, ← List.length_append,
    List.getElem?_append_right (Nat.le_refl _), Nat.sub_self]
  constructor
  · rintro ⟨u, hu, hp⟩
    cases after with
    | nil => cases hu
    | cons v rest => cases hu; exact ⟨u, rest, rfl, hp⟩
  · rintro ⟨u, rest, rfl, hp⟩
    exact ⟨u, rfl, hp⟩

/-- A possessive quantifier whose target begins where balanced tokens do comes right after them. -/
theorem TargetAt.eq_add_length (h : TargetAt ts q before.length) (hfollows : FollowsTargets ts)
    (hq : q ∈ possessives ts) (hts : ts = before ++ (us ++ after)) (hus : Repeatable us)
    (hb : Emitted.Balanced us) : q = before.length + us.length := by
  obtain ⟨before', us', after', hts', hus', hlength, rfl⟩ := h
  obtain ⟨rfl, htail⟩ := List.append_inj (hts.symm.trans hts') hlength.symm
  obtain ⟨u, rest, rfl, hp⟩ := (mem_possessives_append hts').1 hq
  cases hus with
  | @single t ht =>
    cases hus' with
    | single ht' => rfl
    | group ho hc hbody =>
      -- a token alone is not balanced if it opens a group
      obtain ⟨rfl, -⟩ := List.cons.inj htail
      simp [balanced_iff, closesEach, ho] at hb
  | @group opener closer body ho hc hbody =>
    cases hus' with
    | single ht' =>
      obtain ⟨rfl, -⟩ := List.cons.inj htail
      have hends := hfollows.endsTarget_eq hts' hp
      rw [endsTarget_of_isOpen ho] at hends
      cases hends
    | @group opener' closer' body' ho' hc' hbody' =>
      have hclose := matchingClose_balanced ho hc hbody before after
      have hclose' := matchingClose_balanced ho' hc' hbody' before (u :: rest)
      simp only [List.cons_append, List.append_assoc, List.nil_append] at htail
      rw [htail, hclose'] at hclose
      have hlengths := Option.some.inj hclose
      simp
      omega

/-- No target begins at a token that ends something without beginning it, or at a quantifier. -/
theorem not_targetAt (hfollows : FollowsTargets ts) (hts : ts = before ++ t :: after)
    (ho : t.kind.isOpen = false) (ht : t.kind = .close ∨ endsTarget t.kind = false)
    (hq : q ∈ possessives ts) : ¬ TargetAt ts q before.length := by
  rintro ⟨before', us, after', hts', hus, hlength, rfl⟩
  obtain ⟨rfl, htail⟩ := List.append_inj (hts.symm.trans hts') hlength.symm
  obtain ⟨u, rest, rfl, hp⟩ := (mem_possessives_append hts').1 hq
  cases hus with
  | single hc =>
    obtain ⟨rfl, -⟩ := List.cons.inj htail
    have hends := hfollows.endsTarget_eq hts' hp
    rcases ht with ht | ht
    · exact hc ht
    · rw [ht] at hends
      cases hends
  | group ho' hc hbody =>
    obtain ⟨rfl, -⟩ := List.cons.inj htail
    rw [ho'] at ho
    cases ho

/-- Targets of possessive quantifiers each of which follows something. -/
structure Targets (target : Nat → Nat) (ts : List Token) : Prop where
  targets : ∀ q ∈ possessives ts, TargetAt ts q (target q)
  follows : FollowsTargets ts

namespace Targets

theorem openersOf_eq_nil (h : Targets target ts)
    (hnone : ∀ q ∈ possessives ts, ¬ TargetAt ts q k) : openersOf target ts k = [] := by
  refine List.eq_nil_iff_forall_not_mem.2 fun q hq => ?_
  obtain ⟨hmem, rfl⟩ := mem_openersOf.1 hq
  exact hnone q hmem (h.targets q hmem)

/-- Nothing opens before a token that closes a group. -/
theorem openersOf_closer (h : Targets target ts) (hts : ts = before ++ t :: after)
    (hc : t.kind = .close) : openersOf target ts before.length = [] :=
  h.openersOf_eq_nil fun _ hq => not_targetAt h.follows hts (by rw [hc]; rfl) (.inl hc) hq

/-- Nothing opens before a possessive quantifier. -/
theorem openersOf_possessive (h : Targets target ts) (hts : ts = before ++ t :: after)
    (hp : isPossessive t) : openersOf target ts before.length = [] := by
  have hkind : t.kind = .quantifier true := of_decide_eq_true hp
  exact h.openersOf_eq_nil fun _ hq =>
    not_targetAt h.follows hts (by rw [hkind]; rfl) (.inr (by rw [hkind]; rfl)) hq

/-- Nothing opens before something that is not repeated. -/
theorem openersOf_of_not (h : Targets target ts) (hts : ts = before ++ (us ++ after))
    (hus : Repeatable us) (hb : Emitted.Balanced us)
    (hafter : ∀ t ∈ after.head?, isPossessive t = false) :
    openersOf target ts before.length = [] := by
  refine h.openersOf_eq_nil fun q hq htarget => ?_
  obtain rfl := htarget.eq_add_length h.follows hq hts hus hb
  obtain ⟨u, rest, rfl, hp⟩ := (mem_possessives_append hts).1 hq
  simp [hafter u rfl] at hp

/-- The group for a possessive quantifier opens before what it repeats. -/
theorem openersOf_of_possessive (h : Targets target ts) (hts : ts = before ++ (us ++ u :: after))
    (hus : Repeatable us) (hb : Emitted.Balanced us) (hp : isPossessive u) :
    openersOf target ts before.length = [before.length + us.length] := by
  have hq : before.length + us.length ∈ possessives ts :=
    (mem_possessives_append hts).2 ⟨u, after, rfl, hp⟩
  have hstart : target (before.length + us.length) = before.length :=
    (h.targets _ hq).start_unique ⟨before, us, _, hts, hus, rfl, rfl⟩
  have hnodup : (openersOf target ts before.length).Nodup := (nodup_possessives ts).filter _
  refine List.perm_singleton.1 ((List.perm_ext_iff_of_nodup hnodup (by simp)).2 fun q => ?_)
  rw [mem_openersOf, List.mem_singleton]
  constructor
  · rintro ⟨hmem, hk⟩
    have htarget := h.targets q hmem
    rw [hk] at htarget
    exact htarget.eq_add_length h.follows hmem hts hus hb
  · rintro rfl
    exact ⟨hq, hstart⟩

/-- Balanced tokens that are shorter than `n` stay balanced with the groups that are added. -/
def KeepsBalance (target : Nat → Nat) (ts : List Token) (n : Nat) : Prop :=
  ∀ before us after, us.length < n → ts = before ++ (us ++ after) → Emitted.Balanced us →
    (∀ t ∈ us.head?, isPossessive t = false) → (∀ t ∈ after.head?, isPossessive t = false) →
    Emitted.Balanced ((groupedFrom (openersOf target ts) before.length us).map (·.1))

/-- The groups around something open before it, and what comes then is balanced. -/
theorem exists_inner (h : Targets target ts) (hts : ts = before ++ (us ++ after))
    (hus : Repeatable us) (hb : Emitted.Balanced us)
    (hhead : ∀ t ∈ us.head?, isPossessive t = false) (hkeeps : KeepsBalance target ts us.length) :
    ∃ inner, groupedFrom (openersOf target ts) before.length us
        = openedFor (openersOf target ts before.length) ++ inner ∧
      Emitted.Balanced (inner.map (·.1)) := by
  cases hus with
  | @single t ht =>
    refine ⟨[(t, .kept)], ?_, hb⟩
    rw [groupedFrom, groupedToken_of_not (hhead t rfl)]
    rfl
  | @group opener closer body ho hc hbody =>
    have hcloser : isPossessive closer = false := isPossessive_eq_false (by rw [hc]; rfl)
    have hopener : ts = before ++ opener :: (body ++ closer :: after) := by simp [hts]
    have hsplit : ts = (before ++ opener :: body) ++ closer :: after := by simp [hts]
    have hshorter : body.length < (opener :: (body ++ [closer])).length := by
      simp only [List.length_cons, List.length_append]
      omega
    have hinner := hkeeps (before ++ [opener]) body (closer :: after) hshorter (by simp [hts])
      hbody (fun t ht => h.follows.not_possessive hopener (endsTarget_of_isOpen ho) t
        (List.mem_head?_append_of_mem_head? ht)) (by simpa using hcloser)
    have hnone := h.openersOf_closer hsplit hc
    rw [List.length_append, List.length_cons, Nat.add_comm body.length, ← Nat.add_assoc] at hnone
    rw [List.length_append, List.length_singleton] at hinner
    refine ⟨(opener, .kept) :: (groupedFrom (openersOf target ts) (before.length + 1) body
      ++ [(closer, .kept)]), ?_, ?_⟩
    · rw [groupedFrom, groupedToken_of_not (isPossessive_of_isOpen ho), groupedFrom_append,
        groupedFrom, hnone, groupedToken_of_not hcloser]
      rfl
    · simpa using Balanced.group ho hc hinner .nil

theorem exists_repeatable (h : Emitted.Balanced us) (hne : us ≠ []) :
    ∃ first rest, us = first ++ rest ∧ Repeatable first ∧ Emitted.Balanced first ∧
      Emitted.Balanced rest := by
  cases h with
  | nil => exact absurd rfl hne
  | @plain t rest ho hc h => exact ⟨[t], rest, rfl, .single hc, .plain ho hc .nil, h⟩
  | @group opener closer body rest ho hc hbody hrest =>
    exact ⟨opener :: (body ++ [closer]), rest, by simp, .group ho hc hbody,
      .group ho hc hbody .nil, hrest⟩

/-- **Grouping keeps balanced tokens balanced.** -/
theorem keepsBalance (h : Targets target ts) (n : Nat) : KeepsBalance target ts n := by
  -- what is in a group is shorter than what it is a part of, and so is what comes after it
  induction n with
  | zero => intro before us after hlt; omega
  | succ n ih =>
    intro before us after hlt hts hb hhead hafter
    by_cases hne : us = []
    · subst hne
      exact .nil
    obtain ⟨first, rest, rfl, hfirst, hbfirst, hbrest⟩ := exists_repeatable hb hne
    have hpos : 0 < first.length := by cases hfirst <;> simp
    rw [List.length_append] at hlt
    rw [List.append_assoc] at hts
    have hsplit : ts = (before ++ first) ++ (rest ++ after) := by rw [hts, List.append_assoc]
    obtain ⟨inner, hinner, hbinner⟩ := h.exists_inner hts hfirst hbfirst
      (fun t ht => hhead t (List.mem_head?_append_of_mem_head? ht))
      fun before us after hlt' => ih before us after (by omega)
    rw [groupedFrom_append, hinner, List.append_assoc]
    by_cases hrepeated : ∃ u ∈ rest.head?, isPossessive u
    · obtain ⟨u, hu, hp⟩ := hrepeated
      obtain ⟨rest, rfl⟩ := List.head?_eq_some_iff.1 hu
      have hkind : u.kind = .quantifier true := of_decide_eq_true hp
      have hnone := h.openersOf_possessive hsplit hp
      have hbrest : Emitted.Balanced rest := by
        rw [balanced_iff] at hbrest ⊢
        simpa [closesEach, hkind, Kind.isOpen] using hbrest
      have htail := ih (before ++ first ++ [u]) rest after (by simp at hlt; omega)
        (by simp [hts]) hbrest (fun t ht => h.follows.not_possessive hsplit (by rw [hkind]; rfl) t
          (List.mem_head?_append_of_mem_head? ht)) hafter
      have hgreedy : Emitted.Balanced (inner.map (·.1) ++ [greedyToken u]) :=
        hbinner.append (.plain rfl (by simp [greedyToken]) .nil)
      rw [List.length_append] at hnone
      rw [List.length_append, List.length_append, List.length_singleton] at htail
      rw [h.openersOf_of_possessive hts hfirst hbfirst hp, groupedFrom, hnone,
        groupedToken_of_possessive hp]
      have hgroup := @Emitted.Balanced.group atomicToken closeToken _ _ rfl rfl hgreedy htail
      simpa [openedFor] using hgroup
    · have hrest : ∀ t ∈ rest.head?, isPossessive t = false := by simpa using hrepeated
      have hnext : ∀ t ∈ (rest ++ after).head?, isPossessive t = false := by
        cases rest with
        | nil => exact hafter
        | cons u rest => exact hrest
      have htail := ih (before ++ first) rest after (by omega) hsplit hbrest hrest hafter
      rw [List.length_append] at htail
      rw [h.openersOf_of_not hts hfirst hbfirst hnext, List.map_append, List.map_append]
      exact hbinner.append htail

/-- Where the opener of a group is among the grouped tokens. -/
theorem exists_of_opens (h : (groupedFrom openers k ts)[o]? = some (u, .opens q)) :
    ∃ before after j, ts = before ++ after ∧ (openers (k + before.length))[j]? = some q ∧
      o = (groupedFrom openers k before).length + j := by
  induction ts generalizing k o with
  | nil => cases h
  | cons t ts ih =>
    rw [groupedFrom, List.getElem?_append] at h
    split at h
    next hlt =>
      rw [openedFor, List.getElem?_map] at h
      obtain ⟨q', hq', heq⟩ := Option.map_eq_some_iff.1 h
      cases heq
      exact ⟨[], t :: ts, o, rfl, hq', by simp [groupedFrom]⟩
    next hle =>
      rw [List.getElem?_append] at h
      split at h
      next =>
        have hmem := List.mem_of_getElem? h
        unfold groupedToken at hmem
        split at hmem <;> simp at hmem
      next hle' =>
        obtain ⟨before, after, j, rfl, hq, ho⟩ := ih h
        refine ⟨t :: before, after, j, rfl, ?_, ?_⟩
        · rwa [List.length_cons, Nat.add_comm before.length, ← Nat.add_assoc]
        · rw [groupedFrom, List.length_append, List.length_append]
          omega

/-- What a possessive quantifier repeats is balanced, and begins with no such quantifier. -/
theorem balanced_target (h : Targets target ts) (hts : ts = before ++ (us ++ u :: after))
    (hus : Repeatable us) (hp : isPossessive u) :
    Emitted.Balanced us ∧ ∀ t ∈ us.head?, isPossessive t = false := by
  cases hus with
  | @single t hc =>
    have hends := h.follows.endsTarget_eq hts hp
    have hplain : t.kind.isOpen = false ∧ t.kind.isQuantifier = false := by
      cases hk : t.kind <;> simp_all [endsTarget, Kind.isOpen, Kind.isQuantifier]
    exact ⟨.plain hplain.1 hc .nil, by simpa using isPossessive_eq_false hplain.2⟩
  | group ho hc hbody =>
    exact ⟨.group ho hc hbody .nil, by simpa using isPossessive_of_isOpen ho⟩

/-- **The opener of a group is matched by the parenthesis for the same quantifier.** -/
theorem matchingClose_grouped (h : Targets target ts) {opener : Token}
    (ho : (grouped target ts)[o]? = some (opener, .opens q)) :
    ∃ c, (grouped target ts)[c]? = some (closeToken, .closes q) ∧
      matchingClose ((grouped target ts).map (·.1)) o = some c := by
  obtain ⟨before, after, j, hts, hj, rfl⟩ := exists_of_opens ho
  rw [Nat.zero_add] at hj
  obtain ⟨hq, hstart⟩ := mem_openersOf.1 (List.mem_of_getElem? hj)
  have htarget := h.targets q hq
  rw [hstart] at htarget
  obtain ⟨before', us, after', hts', hus, hlength, rfl⟩ := htarget
  obtain ⟨rfl, rfl⟩ := List.append_inj (hts.symm.trans hts') hlength.symm
  obtain ⟨u, rest, rfl, hp⟩ := (mem_possessives_append hts).1 hq
  obtain ⟨hb, hhead⟩ := h.balanced_target hts hus hp
  obtain ⟨inner, hinner, hbinner⟩ := h.exists_inner hts hus hb hhead (h.keepsBalance _)
  have hopeners := h.openersOf_of_possessive hts hus hb hp
  have hnone := h.openersOf_possessive (hts.trans (List.append_assoc ..).symm) hp
  rw [List.length_append] at hnone
  obtain rfl : j = 0 := by
    rw [hopeners] at hj
    exact Nat.lt_one_iff.1 (List.getElem?_eq_some_iff.1 hj).1
  have hgrouped : grouped target ts = groupedFrom (openersOf target ts) 0 before
      ++ (atomicToken, .opens (before.length + us.length))
        :: ((inner ++ [(greedyToken u, .kept)]) ++ (closeToken, .closes (before.length + us.length))
          :: groupedFrom (openersOf target ts) (before.length + us.length + 1) rest) := by
    rw [grouped]
    conv_lhs => arg 3; rw [hts]
    rw [groupedFrom_append, Nat.zero_add, groupedFrom_append, hinner, hopeners, groupedFrom, hnone,
      groupedToken_of_possessive hp]
    simp [openedFor]
  have hgreedy : Emitted.Balanced (inner.map (·.1) ++ [greedyToken u]) :=
    hbinner.append (.plain rfl (by simp [greedyToken]) .nil)
  have hclose := @matchingClose_balanced atomicToken closeToken _ rfl rfl
    hgreedy ((groupedFrom (openersOf target ts) 0 before).map (·.1))
    ((groupedFrom (openersOf target ts) (before.length + us.length + 1) rest).map (·.1))
  refine ⟨(groupedFrom (openersOf target ts) 0 before).length + (inner.length + 1) + 1, ?_, ?_⟩
  · rw [hgrouped, List.getElem?_append_right (by omega)]
    have hindex : ∀ a b : Nat, a + (b + 1) + 1 - a = b + 1 + 1 := by omega
    simp [hindex]
  · simpa [hgrouped] using hclose

end Targets

/-! ## Grouped drafts -/

theorem possessiveTextFrom_nil (h : ∀ t ∈ ts, isPossessive t = false) (k : Nat) :
    possessiveTextFrom [] k ts = textOf ts := by
  induction ts generalizing k with
  | nil => rfl
  | cons t ts ih =>
    rw [List.forall_mem_cons] at h
    rw [← List.singleton_append, possessiveTextFrom_append, possessiveTextFrom_singleton,
      possessiveText_of_not h.1, ih h.2]
    simp [openAtomics]

/-- A grouped draft has the text that is put together, also where it is left as it is. -/
theorem exists_of_groupPossessive {p d : Draft} (h : groupPossessive p = .ok d) :
    ∃ ts starts, scan p.text = .ok ts ∧ targetStarts ts = .ok starts ∧
      d = { p with text := possessiveTextFrom starts 0 ts } := by
  obtain ⟨ts, hscan, h⟩ := exists_of_bind_eq_ok h
  obtain ⟨starts, hstarts, h⟩ := exists_of_bind_eq_ok h
  refine ⟨ts, starts, hscan, hstarts, ?_⟩
  split at h
  next hempty =>
    cases h
    obtain rfl := List.isEmpty_iff.1 hempty
    obtain ⟨target, hnil, -⟩ := exists_of_targetStarts hstarts
    have hnone : ∀ t ∈ ts, isPossessive t = false := by
      intro t ht
      obtain ⟨q, hq⟩ := List.mem_iff_getElem?.1 ht
      by_contra hp
      have hmem := mem_possessives.2 ⟨t, hq, by simpa using hp⟩
      rw [List.map_eq_nil_iff.1 hnil.symm] at hmem
      cases hmem
    have htext : textOf ts = p.text := scanFrom_flatten hscan
    rw [possessiveTextFrom_nil hnone, htext]
  next => cases h; rfl

/-- **Grouping a pattern keeps its tokens, up to the groups that are added.** The pattern scans to
tokens `ts`, and its grouped form to the same tokens with an atomic group for each possessive
quantifier, from its target to itself. No possessive quantifier is left, so grouping again changes
nothing, and captures and layout are the same. Where each quantifier follows something, the group
that is opened for it is closed for it. -/
theorem groupPossessive_exact {p d : Draft} (h : groupPossessive p = .ok d) :
    ∃ ts target, scan p.text = .ok ts ∧ ExactGrouping target ts p d := by
  obtain ⟨ts, starts, hscan, hstarts, rfl⟩ := exists_of_groupPossessive h
  obtain ⟨target, rfl, htargets⟩ := exists_of_targetStarts hstarts
  have htext : textOf ((grouped target ts).map (·.1))
      = possessiveTextFrom ((possessives ts).map target) 0 ts :=
    textOf_groupedFrom (length_openersOf target ts)
  have hreads : Reads ((grouped target ts).map (·.1)) [] :=
    (renders_groupedFrom (reads_of_scan hscan)).reads [] (.refl []) fun _ _ => rfl
  have hscanned : scan (possessiveTextFrom ((possessives ts).map target) 0 ts)
      = .ok ((grouped target ts).map (·.1)) := by
    rw [← htext]
    exact scan_of_reads hreads
  refine ⟨ts, target, hscan, htargets, hscanned, fun t => not_possessive_of_mem, ?_, rfl, ?_, ?_⟩
  · show captureNames (possessiveTextFrom _ 0 ts) = _
    rw [captureNames, captureNames, hscanned, hscan]
    exact congrArg Except.ok captures_groupedFrom
  · exact groupPossessive_of_not_possessive hscanned fun t => not_possessive_of_mem
  · exact fun hfollows o q => Targets.matchingClose_grouped ⟨htargets, hfollows⟩

/-- A quantifier in a repeated group, and one after a reference. -/
theorem groupPossessive_exact_nested :
    ∃ ts target, scan "((?<x>a)*+b)++|\\2\x7b2,3\x7d+".toList = .ok ts ∧ FollowsTargets ts ∧
      groupPossessive ⟨"((?<x>a)*+b)++|\\2\x7b2,3\x7d+".toList, ⟨[1], []⟩⟩
        = .ok ⟨"(?>((?>(?<x>a)*)b)+)|(?>\\2\x7b2,3\x7d)".toList, ⟨[1], []⟩⟩ ∧
      ExactGrouping target ts ⟨"((?<x>a)*+b)++|\\2\x7b2,3\x7d+".toList, ⟨[1], []⟩⟩
        ⟨"(?>((?>(?<x>a)*)b)+)|(?>\\2\x7b2,3\x7d)".toList, ⟨[1], []⟩⟩ := by
  have hrun : groupPossessive ⟨"((?<x>a)*+b)++|\\2\x7b2,3\x7d+".toList, ⟨[1], []⟩⟩
      = .ok ⟨"(?>((?>(?<x>a)*)b)+)|(?>\\2\x7b2,3\x7d)".toList, ⟨[1], []⟩⟩ := by
    decide +kernel
  obtain ⟨us, hus, hfollows⟩ : ∃ us, scan "((?<x>a)*+b)++|\\2\x7b2,3\x7d+".toList = .ok us ∧
      FollowsTargets us := by
    refine ⟨[captureToken none, captureToken (some ['x']), ⟨.atom, ['a']⟩, closeToken,
      ⟨.quantifier true, "*+".toList⟩, ⟨.atom, ['b']⟩, closeToken, ⟨.quantifier true, "++".toList⟩,
      ⟨.alternation, ['|']⟩, referenceToken 2, ⟨.quantifier true, "\x7b2,3\x7d+".toList⟩], ?_⟩
    decide +kernel
  obtain ⟨ts, target, hscan, hexact⟩ := groupPossessive_exact hrun
  cases hus.symm.trans hscan
  exact ⟨us, target, hus, hfollows, hrun, hexact⟩

end Diglot.Reduction
