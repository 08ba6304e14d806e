import Diglot.Emitted.Token
import Diglot.Error
import Diglot.Text.Digits

/-!
# Scanning written patterns

`scan` cuts a written pattern into tokens. Each step decides from the text ahead what the token is
and how many characters it has; the texts of the tokens together are the text that was scanned
(`scan_flatten`).
-/

namespace Diglot.Emitted

open Text

/-- A fault, and how many characters of the text ahead stand before it. -/
abbrev FaultAt := Fault × Nat

/-- What a token is, and how many characters it has after those already seen. -/
abbrev Scanned := Except FaultAt (Kind × Nat)

/-- How many characters there are up to and with `closer`; a fault at the end if there is none. -/
def lengthThrough (closer : Char) (cs : List Char) : Except FaultAt Nat :=
  if cs.contains closer then .ok ((cs.takeWhile (· != closer)).length + 1)
  else .error (.unterminatedSequence, cs.length)

def digitCount (cs : List Char) : Nat :=
  (cs.takeWhile (isDigit 10)).length

/-! ## Quantifiers -/

/-- A quantifier of which `n` characters have been seen, with the suffix that `cs` begins with. -/
def quantifierWithSuffix (n : Nat) : List Char → Kind × Nat
  | '+' :: _ => (.quantifier true, n + 1)
  | '?' :: _ => (.quantifier false, n + 1)
  | _ => (.quantifier false, n)

/-- How many characters the interval has whose brace stands before `cs`; none if it is no
interval. -/
def intervalLength? (cs : List Char) : Option Nat :=
  let low := digitCount cs
  if low = 0 then none
  else
    match cs.drop low with
    | '\x7d' :: _ => some (low + 1)
    | ',' :: rest =>
      let high := digitCount rest
      if (rest.drop high).head? = some '\x7d' then some (low + high + 2) else none
    | _ => none

/-! ## Classes -/

/-- How many characters a class has, of which `n` have been seen, with `depth` classes open around
what is ahead and the class itself one more. A backslash takes the next character with it, even past
the end. -/
def classLength : Nat → Nat → List Char → Except FaultAt Nat
  | _, n, [] => .error (.unterminatedClass, n)
  | _, n, ['\\'] => .error (.unterminatedClass, n + 2)
  | depth, n, '\\' :: _ :: cs => classLength depth (n + 2) cs
  | depth, n, '[' :: cs => classLength (depth + 1) (n + 1) cs
  | 0, n, ']' :: _ => .ok (n + 1)
  | depth + 1, n, ']' :: cs => classLength depth (n + 1) cs
  | depth, n, _ :: cs => classLength depth (n + 1) cs

/-! ## Escapes -/

/-- The two sides of the first `&R=` in a text. -/
def splitDepth : List Char → Option (List Char × List Char)
  | [] => none
  | '&' :: 'R' :: '=' :: depth => some ([], depth)
  | c :: cs => (splitDepth cs).map fun (target, depth) => (c :: target, depth)

/-- The recursion marker with the text `body` between its brackets, which ends after `n`
characters. -/
def groupRecursion (body : List Char) (n : Nat) : Scanned :=
  match splitDepth body with
  | none => .error (.missingDepth, n)
  | some (target, depth) =>
    match signedNumber? 10 (Nat.pow 2 32) depth with
    | none => .error (.invalidDepth, n)
    | some d =>
      match signedNumber? 10 (Nat.pow 2 64) target with
      | some k => .ok (.groupRecursion (.number k) d, n)
      | none => .ok (.groupRecursion (.name target) d, n)

/-- An atom of which `n` characters have been seen and which goes on through `closer`. -/
def atomThrough (closer : Char) (n : Nat) (cs : List Char) : Scanned :=
  match lengthThrough closer cs with
  | .ok k => .ok (.atom, n + k)
  | .error (fault, k) => .error (fault, n + k)

/-- An atom of which `n` characters have been seen and which has `k` more, as far as there are
any. -/
def atomWith (n k : Nat) (cs : List Char) : Scanned :=
  .ok (.atom, n + (cs.take k).length)

/-- An escape after its backslash. -/
def escape (cs : List Char) : Scanned :=
  match cs with
  | [] => .error (.trailingBackslash, 0)
  | 'b' :: _ | 'B' :: _ => .ok (.assertion, 1)
  | 'k' :: '<' :: rest => atomThrough '>' 2 rest
  | 'g' :: '<' :: rest =>
    match lengthThrough '>' rest with
    | .ok k => groupRecursion (rest.take (k - 1)) (k + 2)
    | .error (fault, k) => .error (fault, k + 2)
  | 'p' :: '\x7b' :: rest | 'P' :: '\x7b' :: rest | 'u' :: '\x7b' :: rest | 'x' :: '\x7b' :: rest =>
    atomThrough '\x7d' 2 rest
  | 'u' :: rest => atomWith 1 4 rest
  | 'x' :: rest => atomWith 1 2 rest
  | 'c' :: rest => atomWith 1 1 rest
  | c :: rest =>
    if '1' ≤ c && c ≤ '9' then
      let n := digitCount (c :: rest)
      match number? 10 (Nat.pow 2 64) ((c :: rest).take n) with
      | some k => .ok (.backreference k, n)
      | none => .error (.invalidReference .backreference, n)
    else .ok (.atom, 1)

/-- A property, or a code point in braces, goes on through the closing brace. -/
theorem escape_braced {k : Char} (hk : k ∈ ['p', 'P', 'u', 'x']) (cs : List Char) :
    escape (k :: '\x7b' :: cs) = atomThrough '\x7d' 2 cs := by
  simp only [List.mem_cons, List.not_mem_nil, or_false] at hk
  rcases hk with rfl | rfl | rfl | rfl <;> rw [escape]

/-! ## Groups -/

/-- A group opener after its parenthesis. -/
def groupOpener (cs : List Char) : Scanned :=
  match cs with
  | '?' :: ':' :: _ => .ok (.groupOpen, 2)
  | '?' :: '>' :: _ => .ok (.atomicOpen, 2)
  | '?' :: '=' :: _ | '?' :: '!' :: _ => .ok (.lookOpen, 2)
  | '?' :: '<' :: '=' :: _ | '?' :: '<' :: '!' :: _ => .ok (.lookOpen, 3)
  | '?' :: '<' :: rest =>
    match lengthThrough '>' rest with
    | .ok k => .ok (.captureOpen (some (rest.take (k - 1))), k + 2)
    | .error (fault, k) => .error (fault, k + 2)
  | '?' :: 'R' :: '=' :: rest =>
    let n := digitCount rest
    if (rest.drop n).head? != some ')' then .error (.unterminatedMarker, n + 3)
    else
      match number? 10 (Nat.pow 2 32) (rest.take n) with
      | some d => .ok (.recursion d, n + 4)
      | none => .error (.invalidDepth, n + 4)
  | '?' :: rest =>
    let n := (rest.takeWhile fun c => c.isAlpha || c = '-').length
    if (rest.drop n).head? = some ':' then .ok (.groupOpen, n + 2)
    else .error (.invalidGroup, n + 1)
  | _ => .ok (.captureOpen none, 0)

/-- A parenthesis with no question mark behind it opens a capture. -/
theorem groupOpener_of_head?_ne {cs : List Char} (h : cs.head? ≠ some '?') :
    groupOpener cs = .ok (.captureOpen none, 0) := by
  rw [groupOpener] <;> intros <;> subst_vars <;> exact h rfl

/-! ## Tokens -/

/-- What the token that begins with `c` is, and how many characters of `cs` belong to it. -/
def scanAfter (c : Char) (cs : List Char) : Scanned :=
  match c with
  | '\\' => escape cs
  | '[' => (classLength 0 0 cs).map fun n => (.atom, n)
  | '(' => groupOpener cs
  | ')' => .ok (.close, 0)
  | '|' => .ok (.alternation, 0)
  | '^' | '$' => .ok (.assertion, 0)
  | '*' | '+' | '?' => .ok (quantifierWithSuffix 0 cs)
  | '\x7b' =>
    match intervalLength? cs with
    | some n => .ok (quantifierWithSuffix n (cs.drop n))
    | none => .ok (.atom, 0)
  | _ => .ok (.atom, 0)

/-- The tokens of what is left of a written pattern, `position` characters of which came before. -/
def scanFrom (position : Nat) : List Char → Except Error (List Token)
  | [] => .ok []
  | c :: cs =>
    match scanAfter c cs with
    | .error (fault, n) => .error (.malformed (position + 1 + n) fault)
    | .ok (kind, n) => do
      let rest ← scanFrom (position + 1 + (cs.take n).length) (cs.drop n)
      return ⟨kind, c :: cs.take n⟩ :: rest
termination_by cs => cs.length
decreasing_by simp only [List.length_cons, List.length_drop]; omega

/-- The tokens of a written pattern. -/
def scan (text : List Char) : Except Error (List Token) :=
  scanFrom 0 text

/-! ## Nothing is lost -/

theorem scanFrom_flatten {position : Nat} {text : List Char} {tokens : List Token}
    (h : scanFrom position text = .ok tokens) : tokens.flatMap (·.text) = text := by
  fun_induction scanFrom position text generalizing tokens with
  | case1 => cases h; rfl
  | case2 => cases h
  | case3 position c cs kind n _ ih =>
    simp only [bind, Except.bind] at h
    split at h
    · cases h
    · next rest hrest =>
      cases h
      simp [ih hrest]

/-- The texts of the tokens together are the text that was scanned. -/
theorem scan_flatten {text : List Char} {tokens : List Token} (h : scan text = .ok tokens) :
    tokens.flatMap (·.text) = text :=
  scanFrom_flatten h

end Diglot.Emitted
