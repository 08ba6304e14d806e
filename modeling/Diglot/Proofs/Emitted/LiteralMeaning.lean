import Diglot.Proofs.Emitted.ClassMeaning

/-!
# What literals match

How the host takes a literal that ignores case where other parts of the pattern do not. Without
modifier groups its case variants are written out in brackets. With them the host is told to ignore
case, and then it goes by simple case folding (`matchesChar_caseless`). The two need not agree.
-/

namespace Diglot.Emitted

open Diglot.Core Host Text Unicode

variable {c : Char} {x : Dialect} {v : Bool}

/-! ## Characters outside classes -/

/-- A backslash before a letter that has no other meaning begins the escape of a code point. -/
theorem plainToken?_escape (hx : x.grammar = classGrammar v)
    (hc : c ∈ ['n', 'r', 't', 'v', 'f', 'x', 'u']) (cs : List Char) :
    plainToken? x '\\' (c :: cs) = codeToken? x false (c :: cs) := by
  obtain ⟨grammar, extended, named, captures⟩ := x
  subst hx
  simp only [List.mem_cons, List.not_mem_nil, or_false] at hc
  rcases hc with rfl | rfl | rfl | rfl | rfl | rfl | rfl <;> cases v <;> rfl

end Diglot.Emitted
