import Diglot.Emitted.Balance
import Mathlib.Data.List.Chain

/-!
# Token boundaries

Where a token ends can depend on what comes after it: a digit extends a backreference, a sign
extends a quantifier, and a question mark makes another opener of a parenthesis. All other tokens
that are ever written end by themselves.

* `Reads ts follow`: scanning finds the tokens `ts` at the front of their text when `follow` comes
  after it. Scanning the text of such a list gives the list (`scan_of_reads`).
* `Token.Sound`: a token is found before everything that it admits. A list of sound tokens, each of
  which admits the next, reads back (`reads_of_isChain`).
-/

namespace Diglot.Emitted

open Text

variable {t : Token} {follow : List Char} {ts : List Token}

/-! ## Texts of token lists -/

/-- The text of a list of tokens. -/
def textOf (ts : List Token) : List Char :=
  ts.flatMap (·.text)

@[simp] theorem textOf_nil : textOf [] = [] := rfl

@[simp] theorem textOf_cons (t : Token) (ts : List Token) :
    textOf (t :: ts) = t.text ++ textOf ts := rfl

@[simp] theorem textOf_append (ts us : List Token) :
    textOf (ts ++ us) = textOf ts ++ textOf us := by
  simp [textOf]

/-! ## Reading tokens back -/

/-- Scanning finds the token at the front of its text when `follow` comes after it. -/
def Token.ReadsBefore (t : Token) (follow : List Char) : Prop :=
  ∃ c cs, t.text = c :: cs ∧ scanAfter c (cs ++ follow) = .ok (t.kind, cs.length)

theorem scanFrom_readsBefore (h : t.ReadsBefore follow) (position : Nat) :
    scanFrom position (t.text ++ follow)
      = (scanFrom (position + t.text.length) follow).map (t :: ·) := by
  obtain ⟨c, cs, ht, hs⟩ := h
  have hlen : position + 1 + cs.length = position + t.text.length := by
    rw [ht, List.length_cons]; omega
  rw [ht, List.cons_append, scanFrom]
  simp only [hs, List.take_left, List.drop_left, hlen, ht]
  rw [← ht]
  cases scanFrom (position + t.text.length) follow <;> rfl

/-- Scanning finds the tokens at the front of their text when `follow` comes after it. -/
def Reads : List Token → List Char → Prop
  | [], _ => True
  | t :: ts, follow => t.ReadsBefore (textOf ts ++ follow) ∧ Reads ts follow

theorem reads_append {us : List Token} :
    Reads (ts ++ us) follow ↔ Reads ts (textOf us ++ follow) ∧ Reads us follow := by
  induction ts with
  | nil => simp [Reads]
  | cons t ts ih => simp [Reads, ih, and_assoc]

theorem scanFrom_of_reads (h : Reads ts follow) (position : Nat) :
    scanFrom position (textOf ts ++ follow)
      = (scanFrom (position + (textOf ts).length) follow).map (ts ++ ·) := by
  induction ts generalizing position with
  | nil => cases h' : scanFrom position follow <;> simp [h', Except.map]
  | cons t ts ih =>
    rw [textOf_cons, List.append_assoc, scanFrom_readsBefore h.1, ih h.2, List.length_append,
      Nat.add_assoc]
    cases scanFrom (position + (t.text.length + (textOf ts).length)) follow <;> rfl

/-- Tokens that read back are what scanning their text gives. -/
theorem scan_of_reads (h : Reads ts []) : scan (textOf ts) = .ok ts := by
  have hs := scanFrom_of_reads h 0
  rw [List.append_nil, scanFrom] at hs
  simpa [scan, Except.map] using hs

/-! ## Sound tokens -/

/-- Whether a character may follow the token without becoming a part of it. -/
def Token.admits (t : Token) (c : Char) : Bool :=
  match t.kind with
  | .backreference _ => !isDigit 10 c
  | .quantifier _ => c != '+' && c != '?'
  | .captureOpen none => c != '?'
  | _ => true

/-- The token is found wherever its text is followed by something that it admits. -/
def Token.Sound (t : Token) : Prop :=
  ∀ follow : List Char, (∀ c ∈ follow.head?, t.admits c) → t.ReadsBefore follow

theorem Token.Sound.text_ne_nil (h : t.Sound) : t.text ≠ [] := by
  obtain ⟨c, cs, ht, _⟩ := h [] (by simp)
  simp [ht]

/-- The token admits the beginning of the next one. -/
def Token.MayPrecede (t u : Token) : Prop :=
  ∀ c ∈ u.text.head?, t.admits c

/-- The first character of tokens that follow each other is that of the first token. -/
theorem head?_textOf (h : t.text ≠ []) (ts : List Token) :
    (textOf (t :: ts)).head? = t.text.head? := by
  obtain ⟨c, cs, hc⟩ := List.exists_cons_of_ne_nil h
  simp [hc]

/-- **Sound tokens, each of which admits the next, read back.** -/
theorem reads_of_isChain (hs : ∀ t ∈ ts, t.Sound) (hc : ts.IsChain Token.MayPrecede) :
    Reads ts [] := by
  induction ts with
  | nil => trivial
  | cons t ts ih =>
    rw [List.isChain_cons] at hc
    refine ⟨hs t List.mem_cons_self _ ?_, ih (fun u hu => hs u (List.mem_cons_of_mem _ hu)) hc.2⟩
    intro c hcc
    cases ts with
    | nil => simp at hcc
    | cons u us =>
      have hu : u.Sound := hs u (by simp)
      rw [List.append_nil, head?_textOf hu.text_ne_nil] at hcc
      exact hc.1 u (by simp) c hcc

end Diglot.Emitted
