import Diglot.Proofs.Core.Definitions

/-!
# Copies of groups

A subroutine call becomes a hidden copy of the group that it calls. The copy is made from the
definition of the group, at another place and by a lowering of its own. All the same it is what the
group itself became, with all captures hidden (`Node.concealed`).

The group can only differ from its copy in a recursion, or by an anchor that was taken off the front
of the pattern. Neither can be in a copy: a recursion there is refused, and so is the anchor.
-/

namespace Diglot.Core

variable {depth k target : Nat} {call call' : Trail → Scope → Nat → Lower Node} {n b : Source.Node}
  {t t' : Trail} {s : Scope} {m body m' : Node} {x y : Place} {d : Definition}
  {name : Option String} {e : Lowering} {st st' : Bool} {o : LowerOptions} {p : Source.Pattern}
  {q : Pattern}

/-! ## Hidden trees -/

namespace Node

mutual

/-- The tree with all captures marked as hidden copies of the groups that they are of. -/
def concealed : Node → Node
  | capture number name _ _ body => capture number name true (some number) body.concealed
  | sequence ns => sequence (concealedAll ns)
  | alternation ns => alternation (concealedAll ns)
  | group body => group body.concealed
  | atomic body => atomic body.concealed
  | look l body => look l body.concealed
  | repeated body q => repeated body.concealed q
  | n => n

/-- Several trees with all captures marked as hidden. -/
def concealedAll : List Node → List Node
  | [] => []
  | n :: ns => n.concealed :: concealedAll ns

end

theorem concealedAll_eq_map (ns : List Node) : concealedAll ns = ns.map concealed := by
  induction ns with
  | nil => rfl
  | cons n ns ih => rw [concealedAll, ih, List.map_cons]

mutual

theorem concealed_of_captureNodes_nil (m : Node) (h : m.captureNodes = []) : m.concealed = m := by
  cases m with
  | capture => cases h
  | sequence ms | alternation ms => rw [concealed, concealedAll_of_captureNodesAll_nil ms h]
  | group body | atomic body | look _ body | repeated body =>
    rw [concealed, concealed_of_captureNodes_nil body h]
  | _ => rfl

theorem concealedAll_of_captureNodesAll_nil : ∀ (ms : List Node), captureNodesAll ms = [] →
    concealedAll ms = ms
  | [], _ => rfl
  | m :: ms, h => by
    rw [captureNodesAll_cons, List.append_eq_nil_iff] at h
    rw [concealedAll, concealed_of_captureNodes_nil m h.1, concealedAll_of_captureNodesAll_nil ms h.2]

end

theorem isEmpty_concealed (m : Node) : m.concealed.isEmpty = m.isEmpty := by
  cases m <;> rfl

theorem isAlternation_concealed (m : Node) : m.concealed.isAlternation = m.isAlternation := by
  cases m <;> rfl

theorem concealed_ofSequence (ms : List Node) :
    (ofSequence ms).concealed = ofSequence (ms.map concealed) := by
  have hfilter : (ms.map concealed).filter (!·.isEmpty)
      = (ms.filter (!·.isEmpty)).map concealed := by
    rw [List.filter_map]
    congr 2
    funext m
    exact congrArg _ (isEmpty_concealed m)
  unfold ofSequence
  rw [hfilter]
  cases ms.filter (!·.isEmpty) with
  | nil => rfl
  | cons a rest =>
    cases rest with
    | nil => rfl
    | cons b rest =>
      dsimp only [List.map_cons]
      rw [concealed, concealedAll_eq_map]
      rfl

theorem concealed_groupNode (inClone : Bool) (body : Node) (kind : Source.GroupKind) :
    (groupNode inClone body kind).concealed = groupNode true body.concealed kind := by
  cases kind with
  | flags =>
    show (parenthesized body).concealed = parenthesized body.concealed
    unfold parenthesized
    rw [isAlternation_concealed]
    split <;> rfl
  | _ => rfl

end Node

/-! ## Comparing a group with its copy -/

theorem eq_of_leaf (hn : n.isLeaf = true) (h : Place.Lowers e call ⟨t, s, n⟩ m)
    (h' : Place.Lowers e call' ⟨t', s.inCopy, n⟩ m') : m = m' := by
  obtain ⟨st, st', h⟩ := h
  obtain ⟨st₁, st₁', h'⟩ := h'
  cases n with
  | empty | literal | dot | lineBreak =>
    rw [lowerNode] at h h'
    cases h
    cases h'
    rfl
  | set x | charClass x =>
    rw [lowerNode] at h h'
    obtain ⟨r, _, hr, h⟩ := exists_of_run_bind h
    obtain ⟨r', _, hr', h'⟩ := exists_of_run_bind h'
    have hsame := (eq_of_run_lift hr).1.symm.trans (eq_of_run_lift hr').1
    cases hsame
    cases h
    cases h'
    rfl
  | assertion a =>
    rw [lowerNode] at h h'
    exact Except.ok.inj ((eq_of_run_lift h).1.symm.trans (eq_of_run_lift h').1)
  | backreference =>
    rw [lowerNode] at h h'
    cases run_of_guard h
    cases run_of_guard h'
    rfl
  | keep =>
    rw [lowerNode] at h h'
    split at h <;> cases h
    split at h' <;> cases h'
    rfl
  | grapheme =>
    rw [lowerNode] at h h'
    obtain ⟨_, _, _, h⟩ := exists_of_run_bind h
    obtain ⟨_, _, _, h'⟩ := exists_of_run_bind h'
    cases h
    cases h'
    rfl
  | _ => cases hn

/-- Two ways of lowering calls agree: what the first makes of a call is, with captures hidden, what
the second makes of it in a copy. Of the groups around the first place we only need to look at those
that are not around the second one. -/
def CallsAgree (call call' : Trail → Scope → Nat → Lower Node) : Prop :=
  ∀ {t t' s target st₁ st₂ st₁' st₂' m m'},
    (s.inClone = false → target ∈ t.ancestors → target ∈ t'.ancestors) →
    (call t s target).run st₁ = .ok (m, st₂) →
    (call' t' s.inCopy target).run st₁' = .ok (m', st₂') → m.concealed = m'

theorem map_eq_of_forall₂ {α β : Type} {R R' : α → β → Prop} {f : β → β} {as : List α}
    {bs bs' : List β} (h : List.Forall₂ R as bs) (h' : List.Forall₂ R' as bs')
    (hf : ∀ a ∈ as, ∀ b b', R a b → R' a b' → f b = b') : bs.map f = bs' := by
  induction h generalizing bs' with
  | nil =>
    cases h'
    rfl
  | cons hab _ ih =>
    cases h' with
    | cons hab' hrest' =>
      rw [List.map_cons, hf _ List.mem_cons_self _ _ hab hab',
        ih hrest' fun a ha => hf a (List.mem_cons_of_mem _ ha)]

/-- **A tree in its own place and in a copy.** Below the top level, the tree becomes the same in both,
but for the captures being hidden. -/
theorem concealed_eq (hcall : CallsAgree call call') {n : Source.Node} {t t' : Trail} {s : Scope}
    {m m' : Node} (htop : s.topLevel = false)
    (hcalls : s.inClone = false → ∀ k, n.Calls k → k ∈ t.ancestors → k ∈ t'.ancestors)
    (h : Place.Lowers e call ⟨t, s, n⟩ m) (h' : Place.Lowers e call' ⟨t', s.inCopy, n⟩ m') :
    m.concealed = m' := by
  by_cases hleaf : n.isLeaf = true
  · rw [Node.concealed_of_captureNodes_nil m (Place.captureNodes_of_leaf hleaf h)]
    exact eq_of_leaf hleaf h h'
  have hbelow : ∀ c, n.Child c → s.inClone = false → ∀ k, c.Calls k → k ∈ t.ancestors →
      k ∈ t'.ancestors :=
    fun c hc hs k hk => hcalls hs k (hk.of_contains (.single hc))
  cases n with
  | sequence ns =>
    obtain ⟨ms, hms, rfl⟩ := Place.lowers_sequence_of_nested htop h
    obtain ⟨ms', hms', rfl⟩ := Place.lowers_sequence_of_nested rfl h'
    rw [Node.concealed_ofSequence]
    refine congrArg Node.ofSequence (map_eq_of_forall₂ hms hms' fun c hc b b' hb hb' => ?_)
    have hsize := Source.Node.sizeOf_child (.sequence hc)
    exact concealed_eq hcall (s := s.nested) rfl (hbelow c (.sequence hc)) hb hb'
  | alternation ns =>
    obtain ⟨ms, hms, rfl⟩ := Place.lowers_alternation h
    obtain ⟨ms', hms', rfl⟩ := Place.lowers_alternation h'
    rw [Node.concealed, Node.concealedAll_eq_map]
    refine congrArg Node.alternation (map_eq_of_forall₂ hms hms' fun c hc b b' hb hb' => ?_)
    have hsize := Source.Node.sizeOf_child (.alternation hc)
    exact concealed_eq hcall (s := s.nested) rfl (hbelow c (.alternation hc)) hb hb'
  | group kind body =>
    obtain ⟨b, hb, rfl⟩ := Place.lowers_group h
    obtain ⟨b', hb', rfl⟩ := Place.lowers_group h'
    have hscope : Place.innerScope ⟨t', s.inCopy, .group kind body⟩
        = (Place.innerScope ⟨t, s, .group kind body⟩).inCopy := by
      cases kind <;> rfl
    have htop' : (Place.innerScope ⟨t, s, .group kind body⟩).topLevel = false := by
      cases kind <;> first | rfl | exact htop
    rw [hscope] at hb'
    rw [Node.concealed_groupNode, concealed_eq hcall htop' ?_ hb hb']
    · rfl
    · intro hs k hk hmem
      rw [Place.inClone_innerScope] at hs
      -- the group itself is around its body in both places
      exact Place.mem_innerTrail.2 ((Place.mem_innerTrail.1 hmem).imp_left
        (hbelow body (.group kind body) hs k hk))
  | repeated body q =>
    obtain ⟨b, hb, rfl⟩ := Place.lowers_repeated h
    obtain ⟨b', hb', rfl⟩ := Place.lowers_repeated h'
    rw [Node.concealed,
      concealed_eq hcall (s := s.nested) rfl (hbelow body (.repeated body q)) hb hb']
  | subroutine place ref target =>
    obtain ⟨st₁, st₂, h⟩ := h
    obtain ⟨st₁', st₂', h'⟩ := h'
    exact hcall (fun hs => hcalls hs target ⟨place, ref, .refl⟩) h h'
  | absent => exact absurd h Place.not_lowers_absent
  | _ => exact absurd rfl hleaf
termination_by sizeOf n

/-- However deep calls may lead, they agree: what is called is copied from the same definition. -/
theorem callsAgree_lowerCall (depth depth' : Nat) :
    CallsAgree (lowerCall e depth) (lowerCall e depth') := by
  induction depth using Nat.strongRecOn generalizing depth' with
  | ind depth ih =>
    intro t t' s target st₁ st₂ st₁' st₂' m m' htrail h h'
    rcases lowerCall_cases h' with ⟨hs', -, -⟩ | ⟨hnot, k', d', body', -, hdef', hbody', rfl⟩
    · cases hs'
    rcases lowerCall_cases h with ⟨hs, ht, rfl, -⟩ | ⟨-, k, d, body, rfl, hdef, hbody, rfl⟩
    · -- a recursion here, but a copy there
      rcases ht with ht | ht
      · exact absurd ht hnot.1
      · exact absurd (htrail hs ht) hnot.2
    · obtain rfl := Option.some.inj (hdef.symm.trans hdef')
      rw [Node.concealed, concealed_eq (ih k (Nat.lt_succ_self k) k') (s := d.scope.inCopy) rfl ?_
        ⟨_, _, hbody⟩ ⟨_, _, hbody'⟩]
      intro hs
      cases hs

/-! ## Where captures come from -/

/-- A hidden capture that was made from the definition of its group, inside that group. -/
def IsCopy (e : Lowering) (c : Node) : Prop :=
  ∃ k d t depth body, e.definition? k = some d ∧ k ∈ t.ancestors ∧
    Place.Lowers e (lowerCall e depth) ⟨t, d.scope.inCopy, d.body⟩ body ∧
    c = .capture k d.name true (some k) body

/-- A visible capture that a capture group below `x` became. -/
def IsOriginal (e : Lowering) (depth : Nat) (x : Place) (c : Node) : Prop :=
  ∃ y k name b body, x.Reaches y ∧ y.node = .group (.capture k name) b ∧
    Place.Lowers e (lowerCall e depth) ⟨y.innerTrail, y.innerScope, b⟩ body ∧
    c = .capture k name false none body

/-- The capture groups below a place are found by their numbers, with their flags. -/
def Known (e : Lowering) (x : Place) : Prop :=
  ∀ y k name b, x.Reaches y → y.node = .group (.capture k name) b →
    ∃ s, e.definition? k = some ⟨k, name, b, s⟩ ∧ s.inCopy = y.scope.inCopy

/-- **Every capture is a copy, or comes from a group of the tree itself.** In a copy, it is a copy. -/
theorem isCopy_or_isOriginal
    (hknown : ∀ k d t, e.definition? k = some d → Known e ⟨t, d.scope.inCopy, d.body⟩)
    (hx : x.scope.inClone = true → Known e x) (h : x.Lowers e (lowerCall e depth) m) {c : Node}
    (hc : c ∈ m.captureNodes) : IsCopy e c ∨ x.scope.inClone = false ∧ IsOriginal e depth x c := by
  induction depth using Nat.strongRecOn generalizing x m with
  | ind depth ih =>
    obtain ⟨y, m', hy, hm', hc, ⟨rfl, number, name, body, hnode⟩ | ⟨place, ref, target, hnode⟩⟩ :=
      Place.exists_reaches h hc
    · obtain ⟨t, s, n⟩ := y
      cases hnode
      have hclone : s.inClone = x.scope.inClone := hy.inClone
      obtain ⟨b, hb, rfl⟩ := Place.lowers_group hm'
      by_cases hs : x.scope.inClone = true
      · obtain ⟨s', hdef, hscope⟩ := hx hs _ _ _ _ hy rfl
        -- the scope of the body is that of the definition
        have hbody : Place.innerScope ⟨t, s, .group (.capture number name) body⟩ = s'.inCopy := by
          show s.nested = _
          rw [hscope, Scope.nested, Scope.inCopy, hclone.trans hs]
        rw [hbody] at hb
        refine .inl ⟨number, ⟨number, name, body, s'⟩, _, depth, b, hdef, ?_, hb, ?_⟩
        · exact List.mem_cons_self
        · rw [groupNode, hclone, hs]
          rfl
      · have hs : x.scope.inClone = false := Bool.eq_false_iff.2 hs
        refine .inr ⟨hs, _, number, name, body, b, hy, rfl, hb, ?_⟩
        rw [groupNode, hclone, hs]
        rfl
    · obtain ⟨t, s, n⟩ := y
      cases hnode
      obtain ⟨st, st', hrun⟩ := hm'
      rcases lowerCall_cases hrun with ⟨-, -, rfl, -⟩ | ⟨-, depth', d, body, rfl, hdef, hbody, rfl⟩
      · cases hc
      · rcases List.mem_cons.1 hc with rfl | hc
        · exact .inl ⟨target, d, _, depth', body, hdef, List.mem_cons_self, ⟨_, _, hbody⟩, rfl⟩
        · -- a capture inside the copy
          rcases ih depth' (Nat.lt_succ_self _) (fun _ => hknown target d _ hdef) ⟨_, _, hbody⟩ hc with
            hcopy | ⟨hs, -⟩
          · exact .inl hcopy
          · cases hs

/-- In a copy, every call leads out of the groups around it and is a copy again. -/
theorem exists_copy_of_calls (hs : x.scope.inClone = true) (h : x.Lowers e (lowerCall e depth) m)
    (hk : x.node.Calls k) :
    k ∉ x.trail.ancestors ∧ ∃ d t depth' body, e.definition? k = some d ∧ k ∈ t.ancestors ∧
      Place.Lowers e (lowerCall e depth') ⟨t, d.scope.inCopy, d.body⟩ body := by
  obtain ⟨place, ref, hcontains⟩ := hk
  obtain ⟨⟨t, s, n⟩, hy, hnode⟩ := Place.exists_reaches_of_contains x hcontains
  cases hnode
  obtain ⟨m', ⟨st, st', hrun⟩, -⟩ := Place.lowers_of_reaches h hy Source.Node.noConfusion
  rcases lowerCall_cases hrun with ⟨hclone, -⟩ | ⟨⟨-, hnot⟩, depth', d, body, -, hdef, hbody, -⟩
  · have hclone' : s.inClone = true := hy.inClone.trans hs
    rw [hclone] at hclone'
    cases hclone'
  · exact ⟨fun hmem => hnot (hy.ancestors hmem), d, _, depth', body, hdef, List.mem_cons_self, _, _,
      hbody⟩

/-- In a copy, every call leads to a group that does not call itself. -/
theorem not_calls_of_lowers (hs : x.scope.inClone = true) (h : x.Lowers e (lowerCall e depth) m)
    (hk : x.node.Calls k) (hd : e.definition? k = some d) : ¬ d.body.Calls k := by
  intro hself
  obtain ⟨-, d', t, depth', body, hd', hmem, hbody⟩ := exists_copy_of_calls hs h hk
  obtain rfl := Option.some.inj (hd.symm.trans hd')
  exact (exists_copy_of_calls (x := ⟨t, d.scope.inCopy, d.body⟩) rfl hbody hself).1 hmem

/-- A tree with the search-start anchor cannot be lowered. -/
theorem not_contains_searchStart (h : x.Lowers e call m) :
    ¬ x.node.Contains (.assertion .searchStart) := by
  intro hcontains
  obtain ⟨⟨t, s, n⟩, hy, hnode⟩ := Place.exists_reaches_of_contains x hcontains
  cases hnode
  obtain ⟨m', ⟨st, st', hrun⟩, -⟩ := Place.lowers_of_reaches h hy Source.Node.noConfusion
  rw [lowerNode] at hrun
  cases hrun

/-! ## Patterns -/

/-- The place of the root of a pattern without its leading anchor. -/
def Place.stripped (o : LowerOptions) (p : Source.Pattern) : Place :=
  ⟨{}, .root p, (p.root.splitStrategy o.singleline).2⟩

theorem lowers_of_lower (h : Pattern.lower o p = .ok q) :
    (Place.stripped o p).Lowers (.of o p)
      (lowerCall (.of o p) (Lowering.of o p).definitions.length) q.root := by
  obtain ⟨-, -, hroot⟩ := lower_eq_ok_iff.1 h
  obtain ⟨⟨m, st⟩, hrun, hm⟩ := exists_of_bind_eq_ok hroot
  cases hm
  exact ⟨false, st, hrun⟩

section

variable (hnodup : (p.root.captures.map (·.1)).Nodup)

include hnodup

theorem known_of_definition? (k : Nat) (d : Definition) (t : Trail)
    (h : (Lowering.of o p).definition? k = some d) :
    Known (.of o p) ⟨t, d.scope.inCopy, d.body⟩ := by
  intro y k' name b hy hnode
  obtain ⟨z, hz, hgroup, hscope⟩ := exists_reaches_of_definition? h
  have hbelow : z.Below ⟨z.innerTrail, z.innerScope, d.body⟩ := by
    refine ⟨rfl, rfl, ?_⟩
    rw [hgroup]
    exact .group _ _
  have hinner : z.innerScope.inCopy = d.scope.inCopy.inCopy := by
    rw [Place.innerScope, hgroup]
    exact hscope.symm
  obtain ⟨y', hy', hnode', hscope'⟩ :=
    hy.transport (w := ⟨z.innerTrail, z.innerScope, d.body⟩) rfl hinner
  obtain ⟨s, hdef, hs⟩ := exists_definition hnodup (hz.trans (.head hbelow hy')) (hnode'.trans hnode)
  exact ⟨s, hdef, hs.trans hscope'⟩

/-- A capture group that is reached without the leading anchor is found by its number, as it was
before. -/
theorem exists_definition_of_stripped (hy : (Place.stripped o p).Reaches y)
    (hnode : y.node = .group (.capture k name) b) :
    ∃ b₀ s, (Lowering.of o p).definition? k = some ⟨k, name, b₀, s⟩ ∧ s.inCopy = y.scope.inCopy ∧
      b₀.Stripped b := by
  obtain ⟨c, hc, hstripped⟩ := hy.stripped (p.root.stripped_splitStrategy o.singleline)
  rw [hnode] at hstripped
  obtain ⟨b₀, rfl, hb⟩ := hstripped.eq_capture
  obtain ⟨s, hdef, hs⟩ := exists_definition hnodup (y := ⟨y.trail, y.scope, _⟩) hc rfl
  exact ⟨b₀, s, hdef, hs, hb⟩

/-- A call in a group, to a group around it, cannot be in a copy of the group. So what a copy calls is
around the group only if it is around the copy. -/
theorem mem_ancestors_of_calls (hy : (Place.stripped o p).Reaches y)
    (hnode : y.node = .group (.capture k name) b) (hk : k ∈ t.ancestors)
    (hcopy : Place.Lowers (.of o p) (lowerCall (.of o p) depth) ⟨t, s.inCopy, b⟩ body) {j : Nat}
    (hj : b.Calls j) (hmem : j ∈ y.innerTrail.ancestors) : j ∈ t.ancestors := by
  rcases Place.mem_innerTrail.1 hmem with hmem | ⟨name', b', hnode'⟩
  · exfalso
    rcases hy.exists_group hmem with hroot | ⟨z, name', b₁, hz, hznode, hcontains⟩
    · cases hroot
    · obtain ⟨b₀, s₀, hdef, -, hstripped⟩ := exists_definition_of_stripped hnodup hz hznode
      have hself : b₁.Calls j := by
        rw [hnode] at hcontains
        exact hj.of_contains (hcontains.tail (.group _ b))
      exact not_calls_of_lowers (x := ⟨t, s.inCopy, b⟩) rfl hcopy hj hdef
        (Place.calls_of_stripped hstripped hself)
  · rw [hnode] at hnode'
    cases hnode'
    exact hk

/-- A copy of a group is what any capture with its number became, with captures hidden. -/
theorem concealed_eq_of_isCopy {name' : Option String} {origin origin' : Option Nat} {body' : Node}
    (hcopy : IsCopy (.of o p) (.capture k name true origin body))
    (h : IsOriginal (.of o p) depth (.stripped o p) (.capture k name' false origin' body')) :
    (Node.capture k name' false origin' body').concealed = .capture k name true origin body := by
  obtain ⟨_, d, t, depth', _, hdef, hk, hbody, heq⟩ := hcopy
  cases heq
  obtain ⟨y, _, _, b, _, hy, hnode, hbody', heq'⟩ := h
  cases heq'
  obtain ⟨b₀, s, hdef', hscope, hstripped⟩ := exists_definition_of_stripped hnodup hy hnode
  obtain rfl := Option.some.inj (hdef'.symm.trans hdef)
  -- an anchor that was taken off the group would be in the copy
  have hsame : b = b₀ := hstripped.eq_or_contains.resolve_right (not_contains_searchStart hbody)
  subst hsame
  have hinner : y.innerScope = y.scope.nested := by rw [Place.innerScope, hnode]
  have hplace : s.inCopy = y.innerScope.inCopy := by
    rw [hinner]
    exact hscope
  have hbody₀ := hbody
  dsimp only at hbody
  rw [hplace] at hbody
  rw [Node.concealed, concealed_eq (callsAgree_lowerCall depth depth') (by rw [hinner]; rfl) ?_ hbody'
    hbody]
  intro _ j hj hmem
  exact mem_ancestors_of_calls hnodup hy hnode hk hbody₀ hj hmem

end

/-- Every group that can be called has a visible capture. -/
theorem exists_visible (h : Pattern.lower o p = .ok q)
    (hd : (Lowering.of o p).definition? k = some d) :
    ∃ name body, Node.capture k name false none body ∈ q.root.captureNodes := by
  -- the groups are the same without the leading anchor
  have hnumber : k ∈ (definitions (Place.stripped o p).scope.inCopy []
      (Place.stripped o p).node).map (·.number) := by
    have hmem := List.mem_map_of_mem (f := (·.number)) (List.mem_of_find?_eq_some hd)
    have hk : d.number = k := by simpa using List.find?_some hd
    have hall : (Lowering.of o p).definitions.map (·.number) = _ :=
      numbers_definitions p.root (.root p)
    rw [hall, hk] at hmem
    rw [numbers_definitions, Place.stripped, (Source.alike_splitStrategy o.singleline p.root).captures]
    exact hmem
  obtain ⟨d', hd', hk'⟩ := List.mem_map.1 hnumber
  obtain ⟨⟨t, s, n⟩, hy, hnode, -⟩ := Place.mem_definitions.1 hd'
  dsimp only at hnode hk'
  subst hnode hk'
  obtain ⟨m, hm, hcaptures⟩ := Place.lowers_of_reaches (lowers_of_lower h) hy Source.Node.noConfusion
  obtain ⟨b, -, rfl⟩ := Place.lowers_group hm
  have hclone : s.inClone = false := hy.inClone
  refine ⟨d'.name, b, hcaptures _ ?_⟩
  rw [hclone]
  exact List.mem_cons_self

/-- **A copy of a group is what the group became.** Every hidden capture of a lowered pattern is of a
group that has a visible capture, and it is that capture with itself and all captures in it marked as
hidden copies of their own groups. -/
theorem hidden_eq_concealed {ro : Source.ReadOptions} {text : List Char}
    (hread : Source.Pattern.read ro text = .ok p) (h : Pattern.lower o p = .ok q) {k : Nat}
    {name : Option String} {origin : Option Nat} {body : Node}
    (hc : Node.capture k name true origin body ∈ q.root.walk) :
    (∃ name' body', Node.capture k name' false none body' ∈ q.root.walk) ∧
      ∀ name' origin' body', Node.capture k name' false origin' body' ∈ q.root.walk →
        (Node.capture k name' false origin' body').concealed = .capture k name true origin body := by
  have hnodup := Source.nodup_numbers_of_read hread
  have horigin : ∀ {c}, c ∈ q.root.walk → c.isCapture = true → IsCopy (.of o p) c ∨
      IsOriginal (.of o p) (Lowering.of o p).definitions.length (.stripped o p) c := by
    intro c hc hcapture
    have hroot : (Place.stripped o p).scope.inClone = false := rfl
    refine (isCopy_or_isOriginal (known_of_definition? hnodup) ?_ (lowers_of_lower h)
      (List.mem_filter.2 ⟨hc, hcapture⟩)).imp_right And.right
    rw [hroot]
    exact fun hs => absurd hs Bool.false_ne_true
  rcases horigin hc rfl with hcopy | ⟨_, _, _, _, _, _, _, _, heq⟩
  · constructor
    · obtain ⟨_, d, _, _, _, hd, -, -, heq⟩ := hcopy
      cases heq
      obtain ⟨name', body', hvisible⟩ := exists_visible h hd
      exact ⟨name', body', (List.mem_filter.1 hvisible).1⟩
    · intro name' origin' body' hc'
      rcases horigin hc' rfl with ⟨_, _, _, _, _, _, _, _, heq⟩ | horiginal
      · cases heq
      · exact concealed_eq_of_isCopy hnodup hcopy horiginal
  · cases heq

/-- A call from where case matters to a group where it does not: there is a copy of the group, which
ignores case as the group does. -/
theorem hidden_eq_concealed_example : ∃ p q name body,
    Source.Pattern.read {} "(?i:(a.))\\g<1>".toList = .ok p ∧ Pattern.lower {} p = .ok q ∧
    Node.capture 1 name false none body ∈ q.root.walk ∧
    (Node.capture 1 name false none body).concealed ∈ q.root.walk := by
  obtain ⟨p, hread, q, hlower, hhidden⟩ : ∃ p,
      Source.Pattern.read {} "(?i:(a.))\\g<1>".toList = .ok p ∧ ∃ q, Pattern.lower {} p = .ok q ∧
        ⟨1, none, true, some 1⟩ ∈ q.root.headings := by
    decide +kernel
  obtain ⟨c, hc, hheading⟩ := List.mem_filterMap.1 hhidden
  cases c with
  | capture number name hidden origin body =>
    cases hheading
    obtain ⟨⟨name', body', hvisible⟩, hall⟩ := hidden_eq_concealed hread hlower hc
    refine ⟨p, q, name', body', hread, hlower, hvisible, ?_⟩
    rw [hall name' none body' hvisible]
    exact hc
  | _ => cases hheading

end Diglot.Core
