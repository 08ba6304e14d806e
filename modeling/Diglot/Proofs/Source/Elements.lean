import Diglot.Proofs.Outcome
import Diglot.Proofs.Source.Names
import Diglot.Source.Resolution

/-!
# Elements of source trees

What is written in a source tree, in pattern order: its sets and classes, its groups as they open,
its quantifiers and its references. Most of what is said of a tree depends on its elements only, and
numbering the groups and resolving the references are passes over the elements
(`elements_number`, `elements_resolve`).
-/

namespace Diglot.Source

/-- A part of a source tree without the parts that are in it. -/
inductive Element where
  | set (s : CharSet)
  | charClass (cls : CharClass)
  | group (kind : GroupKind)
  | quantifier (q : Quantifier)
  | backreference (place : Nat) (ref : Reference) (targets : List Nat)
  | subroutine (place : Nat) (ref : Reference) (target : Nat)

variable {u : Bool} {k m : Nat} {r : Resolver} {es es' : List Element}

mutual

/-- The elements of a tree. A group or a quantifier comes before what is in it. -/
def Node.elements : Node → List Element
  | .set s => [.set s]
  | .charClass cls => [.charClass cls]
  | .group kind body => .group kind :: body.elements
  | .repeated body q => .quantifier q :: body.elements
  | .backreference place ref targets => [.backreference place ref targets]
  | .subroutine place ref target => [.subroutine place ref target]
  | .sequence ns | .alternation ns => elementsAll ns
  | .absent body => body.elements
  | _ => []

/-- The elements of several trees. -/
def elementsAll : List Node → List Element
  | [] => []
  | n :: ns => n.elements ++ elementsAll ns

end

namespace Element

/-- Whether the names in the element satisfy the rule. -/
def keeps (r : NameRule) : Element → Bool
  | set s => s.keeps r
  | charClass cls => cls.keeps r
  | group kind => kind.keeps r
  | _ => true

/-- The number and the name of a capture group. -/
def capture? : Element → Option (Nat × Option String)
  | group (.capture number name) => some (number, name)
  | _ => none

/-- A bracketed class. -/
def charClass? : Element → Option CharClass
  | charClass cls => some cls
  | _ => none

/-- Whether the element is a group with a name. -/
def isNamed (e : Element) : Bool :=
  e.capture?.any (·.2.isSome)

end Element

/-! ## What elements say of a tree -/

mutual

/-- The capture groups of a tree with their numbers, in opening order. -/
def Node.captures : Node → List (Nat × Option String)
  | .group (.capture number name) body => (number, name) :: body.captures
  | .group _ body => body.captures
  | .sequence ns | .alternation ns => capturesAll ns
  | .repeated body _ | .absent body => body.captures
  | _ => []

/-- The capture groups of several trees. -/
def capturesAll : List Node → List (Nat × Option String)
  | [] => []
  | n :: ns => n.captures ++ capturesAll ns

end

mutual

/-- The bracketed classes of a tree, those inside other classes aside. -/
def Node.classes : Node → List CharClass
  | .charClass cls => [cls]
  | .sequence ns | .alternation ns => classesOf ns
  | .group _ body | .repeated body _ | .absent body => body.classes
  | _ => []

/-- The bracketed classes of several trees. -/
def classesOf : List Node → List CharClass
  | [] => []
  | n :: ns => n.classes ++ classesOf ns

end

mutual

theorem captures_eq (n : Node) : n.captures = n.elements.filterMap (·.capture?) := by
  cases n with
  | group kind body =>
    cases kind <;> simp [Node.captures, Node.elements, Element.capture?, captures_eq body]
  | sequence ns | alternation ns => exact capturesAll_eq ns
  | repeated body | absent body => exact captures_eq body
  | _ => rfl

theorem capturesAll_eq : ∀ ns : List Node,
    capturesAll ns = (elementsAll ns).filterMap (·.capture?)
  | [] => rfl
  | n :: ns => by
    rw [capturesAll, elementsAll, List.filterMap_append, captures_eq n, capturesAll_eq ns]

end

mutual

theorem classes_eq (n : Node) : n.classes = n.elements.filterMap (·.charClass?) := by
  cases n with
  | sequence ns | alternation ns => exact classesOf_eq ns
  | group _ body | repeated body | absent body => exact classes_eq body
  | _ => rfl

theorem classesOf_eq : ∀ ns : List Node, classesOf ns = (elementsAll ns).filterMap (·.charClass?)
  | [] => rfl
  | n :: ns => by
    rw [classesOf, elementsAll, List.filterMap_append, classes_eq n, classesOf_eq ns]

end

mutual

theorem keeps_eq (r : NameRule) (n : Node) : n.keeps r = n.elements.all (·.keeps r) := by
  cases n with
  | group _ body => rw [Node.keeps, Node.elements, List.all_cons, keeps_eq r body]; rfl
  | sequence ns | alternation ns => exact keepsAll_eq r ns
  | repeated body | absent body => exact keeps_eq r body
  | set x | charClass x => exact (Bool.and_true (x.keeps r)).symm
  | _ => rfl

theorem keepsAll_eq (r : NameRule) : ∀ ns : List Node,
    keepsAll r ns = (elementsAll ns).all (·.keeps r)
  | [] => rfl
  | n :: ns => by rw [keepsAll, elementsAll, List.all_append, keeps_eq r n, keepsAll_eq r ns]

end

theorem NameRule.Follows.element {a b c : NameRule} (h : c.Follows a b) {e : Element}
    (ha : e.keeps a) (hb : e.keeps b) : e.keeps c := by
  cases e with
  | set s => exact h.charSet ha hb
  | charClass cls => exact h.charClass cls ha hb
  | group kind => exact h.groupKind ha hb
  | _ => rfl

/-- A tree whose names satisfy two rules satisfies a third that asks no more. -/
theorem NameRule.Follows.node {a b c : NameRule} (h : c.Follows a b) (n : Node) (ha : n.keeps a)
    (hb : n.keeps b) : n.keeps c := by
  rw [keeps_eq, List.all_eq_true] at *
  exact fun e he => h.element (ha e he) (hb e he)

mutual

theorem hasNamedGroup_eq (n : Node) : n.hasNamedGroup = n.elements.any (·.isNamed) := by
  cases n with
  | group kind body =>
    cases kind with
    | capture _ name => cases name with
      | none => exact hasNamedGroup_eq body
      | some => rfl
    | _ => exact hasNamedGroup_eq body
  | repeated body | absent body => exact hasNamedGroup_eq body
  | sequence ns | alternation ns => exact anyNamedGroup_eq ns
  | _ => rfl

theorem anyNamedGroup_eq : ∀ ns : List Node,
    Node.anyNamedGroup ns = (elementsAll ns).any (·.isNamed)
  | [] => rfl
  | n :: ns => by
    rw [Node.anyNamedGroup, elementsAll, List.any_append, hasNamedGroup_eq n, anyNamedGroup_eq ns]

end

/-! ## Numbering -/

namespace Element

/-- Whether the element is a capture group. -/
def isCapture (e : Element) : Bool :=
  e.capture?.isSome

/-- How many capture groups open with the element. -/
def opens (e : Element) : Nat :=
  if e.isCapture then 1 else 0

/-- The element with its number, after `k` capture groups. -/
def number (unnamedArePlain : Bool) (k : Nat) : Element → Element
  | group (.capture _ name) =>
    if name.isNone && unnamedArePlain then group .plain else group (.capture (k + 1) name)
  | e => e

end Element

/-- Numbers capture groups one after the other, after `k` others. -/
def numberElements (unnamedArePlain : Bool) : Nat → List Element → List Element
  | _, [] => []
  | k, e :: es =>
    e.number unnamedArePlain k
      :: numberElements unnamedArePlain (k + (e.number unnamedArePlain k).opens) es

/-- How many of the elements are capture groups. -/
def openedBy (es : List Element) : Nat :=
  es.countP (·.isCapture)

theorem openedBy_cons (e : Element) (es : List Element) :
    openedBy (e :: es) = e.opens + openedBy es := by
  rw [openedBy, List.countP_cons, Nat.add_comm]
  rfl

theorem openedBy_eq (es : List Element) : openedBy es = (es.filterMap (·.capture?)).length := by
  induction es with
  | nil => rfl
  | cons e es ih =>
    rw [openedBy_cons, ih, List.filterMap_cons]
    cases h : e.capture? <;> simp [Element.opens, Element.isCapture, h, Nat.add_comm]

theorem numberElements_append (es fs : List Element) :
    numberElements u k (es ++ fs) = numberElements u k es
      ++ numberElements u (k + openedBy (numberElements u k es)) fs := by
  induction es generalizing k with
  | nil => rfl
  | cons e es ih =>
    rw [List.cons_append, numberElements, ih, numberElements, openedBy_cons, Nat.add_assoc]
    rfl

/-- Numbering changes nothing but groups. -/
theorem filterMap_numberElements {α : Type} {f : Element → Option α}
    (hf : ∀ kind, f (.group kind) = none) (es : List Element) :
    (numberElements u k es).filterMap f = es.filterMap f := by
  have hnumber : ∀ j e, f (e.number u j) = f e := by
    intro j e
    unfold Element.number
    split
    · split <;> rw [hf, hf]
    · rfl
  induction es generalizing k with
  | nil => rfl
  | cons e es ih => rw [numberElements, List.filterMap_cons, List.filterMap_cons, hnumber, ih]

theorem keeps_numberElements {r : NameRule} {es : List Element} (h : es.all (·.keeps r)) :
    (numberElements u k es).all (·.keeps r) := by
  have hnumber : ∀ j e, Element.keeps r e → (e.number u j).keeps r := by
    intro j e he
    unfold Element.number
    split
    · split
      · rfl
      · exact he
    · exact he
  induction es generalizing k with
  | nil => rfl
  | cons e es ih =>
    rw [List.all_cons, Bool.and_eq_true] at h
    rw [numberElements, List.all_cons, Bool.and_eq_true]
    exact ⟨hnumber k e h.1, ih h.2⟩

/-- Capture groups are numbered in the order in which they open. -/
theorem numbers_numberElements (es : List Element) :
    ((numberElements u k es).filterMap (·.capture?)).map (·.1)
      = List.range' (k + 1) (openedBy (numberElements u k es)) := by
  induction es generalizing k with
  | nil => rfl
  | cons e es ih =>
    rw [numberElements, openedBy_cons, List.filterMap_cons]
    cases h : (e.number u k).capture? with
    | none =>
      have hopens : (e.number u k).opens = 0 := by simp [Element.opens, Element.isCapture, h]
      simp only [hopens, Nat.add_zero, Nat.zero_add, ih]
    | some c =>
      have hopens : (e.number u k).opens = 1 := by simp [Element.opens, Element.isCapture, h]
      have hnumber : c.1 = k + 1 := by
        unfold Element.number at h
        split at h
        · split at h <;> cases h
          rfl
        next hother =>
          unfold Element.capture? at h
          split at h
          · exact absurd rfl (hother _ _)
          · cases h
      simp only [hopens, List.map_cons, ih, Nat.add_comm 1, List.range'_succ, hnumber]

/-- The second elements are the first with their numbers, after the groups of `g`, and those of `g'`
are the groups of `g` and theirs. -/
structure Numbered (u : Bool) (g g' : Groups) (es es' : List Element) : Prop where
  elements : es' = numberElements u g.count es
  names : g'.names = g.names ++ (es'.filterMap (·.capture?)).map (·.2)

namespace Numbered

variable {g g' g'' : Groups} {fs fs' : List Element}

theorem nil (g : Groups) : Numbered u g g [] [] := ⟨rfl, by simp⟩

/-- What is no group that captures stays as it is. -/
theorem single {e e' : Element} (he : e.number u g.count = e') (hc : e'.capture? = none) :
    Numbered u g g [e] [e'] :=
  ⟨by rw [numberElements, he]; rfl, by simp [hc]⟩

theorem register {k : Nat} {name : Option String} (h : ¬(name.isNone && u) = true) :
    Numbered u g (g.register name) [.group (.capture k name)]
      [.group (.capture (g.register name).count name)] :=
  ⟨by simp only [numberElements, Element.number, if_neg h, Groups.count_register],
    by simp [Groups.register, Element.capture?]⟩

theorem append (h : Numbered u g g' es es') (h' : Numbered u g' g'' fs fs') :
    Numbered u g g'' (es ++ fs) (es' ++ fs') where
  elements := by
    have hcount : g'.count = g.count + openedBy es' := by
      simp [Groups.count, h.names, openedBy_eq]
    rw [numberElements_append, ← h.elements, ← hcount, ← h'.elements]
  names := by simp [h'.names, h.names]

end Numbered

mutual

/-- **Numbering a tree numbers its elements.** -/
theorem elements_number (u : Bool) (n : Node) (g : Groups) :
    Numbered u g (n.number u g).2 n.elements (n.number u g).1.elements := by
  cases n with
  | group kind body =>
    cases kind with
    | capture k name =>
      rw [Node.number]
      split
      next h =>
        have hplain : (Element.group (.capture k name)).number u g.count = .group .plain := by
          simp only [Element.number, if_pos h]
        exact .append (.single hplain rfl) (elements_number u body g)
      next h => exact .append (.register h) (elements_number u body (g.register name))
    | _ =>
      rw [Node.number]
      · exact .append (.single rfl rfl) (elements_number u body g)
      · simp
  | sequence ns | alternation ns =>
    rw [Node.number]
    exact elements_numberAll u ns g
  | repeated body q =>
    rw [Node.number]
    exact .append (.single rfl rfl) (elements_number u body g)
  | absent body =>
    rw [Node.number]
    exact elements_number u body g
  | set | charClass | backreference | subroutine => exact .single rfl rfl
  | _ => exact .nil g

theorem elements_numberAll (u : Bool) : ∀ (ns : List Node) (g : Groups),
    Numbered u g (Node.numberAll u g ns).2 (elementsAll ns) (elementsAll (Node.numberAll u g ns).1)
  | [], g => .nil g
  | n :: ns, g => by
    rw [Node.numberAll]
    exact (elements_number u n g).append (elements_numberAll u ns _)

end

/-! ## Resolving -/

/-- The element with its targets, where `opened` capture groups opened before it. -/
def Element.resolve (r : Resolver) (opened : Nat) : Element → Except Error Element
  | .backreference place ref _ =>
    return .backreference place ref (← r.backreference place opened ref)
  | .subroutine place ref _ => return .subroutine place ref (← r.subroutine place opened ref)
  | e => return e

/-- Resolves the references among elements one after the other, and counts the capture groups that
opened. -/
def resolveElements (r : Resolver) : Nat → List Element → Except Error (List Element × Nat)
  | k, [] => return ([], k)
  | k, e :: es => do
    let e ← e.resolve r k
    let (es, k) ← resolveElements r (k + e.opens) es
    return (e :: es, k)

theorem resolveElements_append (r : Resolver) (k : Nat) (es fs : List Element) :
    resolveElements r k (es ++ fs) = (do
      let (es, k) ← resolveElements r k es
      let (fs, k) ← resolveElements r k fs
      return (es ++ fs, k)) := by
  induction es generalizing k with
  | nil =>
    rw [resolveElements, pure_bind]
    exact (bind_pure _).symm
  | cons e es ih =>
    simp only [List.cons_append, resolveElements, ih, bind_assoc, pure_bind]

theorem map_eq_bind {ε α β : Type} (f : α → β) (x : Except ε α) :
    x.map f = x >>= fun a => pure (f a) := by
  cases x <;> rfl

mutual

/-- **Resolving a tree resolves its elements**, with the same result. -/
theorem elements_resolve (r : Resolver) (n : Node) (k : Nat) :
    (n.resolve r k).map (fun x => (x.1.elements, x.2)) = resolveElements r k n.elements := by
  cases n with
  | group kind body =>
    have hresolve : (Node.group kind body).resolve r k = (do
        let (body, k) ← body.resolve r (k + (Element.group kind).opens)
        return (.group kind body, k)) := by
      cases kind <;> rw [Node.resolve] <;> first | rfl | simp
    simp only [hresolve, Node.elements, resolveElements, Element.resolve, ← elements_resolve r body,
      map_eq_bind, bind_assoc, pure_bind]
  | sequence ns | alternation ns =>
    simp only [Node.resolve, Node.elements, ← elements_resolveAll r ns, map_eq_bind, bind_assoc,
      pure_bind]
  | repeated body q =>
    have hopens : (Element.quantifier q).opens = 0 := rfl
    simp only [Node.resolve, Node.elements, resolveElements, Element.resolve, hopens,
      ← elements_resolve r body, map_eq_bind, bind_assoc, pure_bind, Nat.add_zero]
  | absent body =>
    simp only [Node.resolve, Node.elements, ← elements_resolve r body, map_eq_bind, bind_assoc,
      pure_bind]
  | backreference place ref _ | subroutine place ref _ =>
    simp only [Node.resolve, Node.elements, resolveElements, Element.resolve, map_eq_bind,
      bind_assoc, pure_bind]
    rfl
  | _ => rfl

theorem elements_resolveAll (r : Resolver) : ∀ (ns : List Node) (k : Nat),
    (Node.resolveAll r k ns).map (fun x => (elementsAll x.1, x.2))
      = resolveElements r k (elementsAll ns)
  | [], _ => rfl
  | n :: ns, k => by
    simp only [Node.resolveAll, elementsAll, resolveElements_append, ← elements_resolve r n,
      ← elements_resolveAll r ns, map_eq_bind, bind_assoc, pure_bind]

end

/-- The element without its targets. -/
def Element.erase : Element → Element
  | .backreference place ref _ => .backreference place ref []
  | .subroutine place ref _ => .subroutine place ref 0
  | e => e

theorem Element.erase_resolve {r : Resolver} {k : Nat} {e e' : Element}
    (h : e.resolve r k = .ok e') : e'.erase = e.erase := by
  unfold Element.resolve at h
  split at h
  · obtain ⟨_, _, h⟩ := exists_of_bind_eq_ok h
    cases h
    rfl
  · obtain ⟨_, _, h⟩ := exists_of_bind_eq_ok h
    cases h
    rfl
  · cases h
    rfl

/-- Resolving changes nothing but targets. -/
theorem erase_resolveElements (h : resolveElements r k es = .ok (es', m)) :
    es'.map (·.erase) = es.map (·.erase) := by
  induction es generalizing k es' with
  | nil => cases h; rfl
  | cons e es ih =>
    obtain ⟨e', he, h⟩ := exists_of_bind_eq_ok h
    obtain ⟨⟨fs, _⟩, hfs, h⟩ := exists_of_bind_eq_ok h
    cases h
    rw [List.map_cons, List.map_cons, ih hfs, Element.erase_resolve he]

/-- A reference is resolved after the capture groups that open before it. -/
theorem exists_of_resolveElements (h : resolveElements r k es = .ok (es', m))
    {before after : List Element} {e' : Element} (hsplit : es' = before ++ e' :: after) :
    ∃ e : Element, e.resolve r (k + openedBy before) = .ok e' := by
  induction es generalizing k es' before with
  | nil => cases h; simp at hsplit
  | cons e es ih =>
    obtain ⟨x, hx, h⟩ := exists_of_bind_eq_ok h
    obtain ⟨⟨fs, _⟩, hfs, h⟩ := exists_of_bind_eq_ok h
    cases h
    cases before with
    | nil =>
      cases hsplit
      exact ⟨e, hx⟩
    | cons b before =>
      obtain ⟨rfl, rfl⟩ := List.cons.inj hsplit
      rw [openedBy_cons, ← Nat.add_assoc]
      exact ih hfs rfl

/-- What cannot be resolved is one of the elements. -/
theorem exists_of_resolveElements_error {e : Error} (h : resolveElements r k es = .error e) :
    ∃ x ∈ es, ∃ j, x.resolve r j = .error e := by
  induction es generalizing k with
  | nil => cases h
  | cons x es ih =>
    rcases error_of_bind h with hx | ⟨x', -, h⟩
    · exact ⟨x, List.mem_cons_self, k, hx⟩
    · rcases error_of_bind h with hes | ⟨_, -, h⟩
      · obtain ⟨y, hy, hj⟩ := ih hes
        exact ⟨y, List.mem_cons_of_mem x hy, hj⟩
      · cases h

/-- What does not look at targets is the same. -/
theorem filterMap_of_erase {α : Type} {f : Element → Option α} (hf : ∀ e, f e.erase = f e)
    (h : es'.map (·.erase) = es.map (·.erase)) : es'.filterMap f = es.filterMap f := by
  have hmap := congrArg (List.filterMap f) h
  rw [List.filterMap_map, List.filterMap_map] at hmap
  simpa [Function.comp_def, hf] using hmap

theorem all_of_erase {p : Element → Bool} (hp : ∀ e, p e.erase = p e)
    (h : es'.map (·.erase) = es.map (·.erase)) : es'.all p = es.all p := by
  have hmap := congrArg (List.all · p) h
  simpa [List.all_map, Function.comp_def, hp] using hmap

end Diglot.Source
