import Diglot.Host.Token.Lexer
import Mathlib.Tactic.Basic

/-!
# Tokens of texts in a context

How the host reads the tokens of a part of a pattern that stands before something else. Parts that
follow each other give their tokens one after the other.
-/

namespace Diglot.Host

variable {x : Dialect} {depth depth' depth'' : Nat} {text text' rest : List Char}
  {ts ts' : List Token}

/-- A token inside `depth` classes. -/
def token? (x : Dialect) (depth : Nat) (c : Char) (cs : List Char) : Option (Token × Nat) :=
  if depth = 0 then plainToken? x c cs else classToken? x c cs

theorem tokensFrom?_cons (x : Dialect) (depth : Nat) (c : Char) (cs : List Char) :
    tokensFrom? x depth (c :: cs) = (token? x depth c cs).bind fun (t, taken) =>
      (tokensFrom? x (t.classDepth depth) (cs.drop taken)).map (t :: ·) := by
  rw [tokensFrom?, token?]
  split <;> exact congrArg (Option.bind _) (funext fun _ => (Option.map_eq_bind ..).symm)

@[simp] theorem tokensFrom?_nil (x : Dialect) (depth : Nat) : tokensFrom? x depth [] = some [] := by
  rw [tokensFrom?]

/-- Every token has a text. -/
theorem length_tokensFrom?_le (h : tokensFrom? x depth text = some ts) :
    ts.length ≤ text.length := by
  induction hlength : text.length using Nat.strongRecOn generalizing depth text ts with
  | ind length ih =>
    cases text with
    | nil =>
      rw [tokensFrom?_nil] at h
      cases h
      exact Nat.zero_le _
    | cons c cs =>
      rw [tokensFrom?_cons] at h
      obtain ⟨⟨t, taken⟩, -, h⟩ := Option.bind_eq_some_iff.1 h
      obtain ⟨later, hlater, rfl⟩ := Option.map_eq_some_iff.1 h
      have hshorter : (cs.drop taken).length < length := by
        rw [← hlength, List.length_drop, List.length_cons]
        omega
      have hrest := ih _ hshorter hlater rfl
      simp only [List.length_cons, List.length_drop] at hlength hrest ⊢
      omega

/-- Before `rest`, the text is read as the tokens `ts`, and leads from `depth` classes to `depth'`. -/
def LexesBefore (x : Dialect) (depth depth' : Nat) (text : List Char) (ts : List Token)
    (rest : List Char) : Prop :=
  tokensFrom? x depth (text ++ rest) = (tokensFrom? x depth' rest).map (ts ++ ·)

/-- The text is read as the tokens `ts`, whatever follows. -/
def Lexes (x : Dialect) (depth depth' : Nat) (text : List Char) (ts : List Token) : Prop :=
  ∀ rest, LexesBefore x depth depth' text ts rest

theorem LexesBefore.nil : LexesBefore x depth depth [] [] rest := by
  unfold LexesBefore
  simp

theorem LexesBefore.tokensFrom?_eq (h : LexesBefore x depth depth' text ts rest)
    (hr : tokensFrom? x depth' rest = some ts') :
    tokensFrom? x depth (text ++ rest) = some (ts ++ ts') := by
  rw [h, hr]
  rfl

theorem LexesBefore.append (h : LexesBefore x depth depth' text ts (text' ++ rest))
    (h' : LexesBefore x depth' depth'' text' ts' rest) :
    LexesBefore x depth depth'' (text ++ text') (ts ++ ts') rest := by
  unfold LexesBefore at *
  rw [List.append_assoc, h, h', Option.map_map]
  refine congrArg (fun f => Option.map f _) (funext fun us => ?_)
  simp

theorem LexesBefore.token {c : Char} {cs : List Char} {t : Token}
    (h : token? x depth c (cs ++ rest) = some (t, cs.length)) :
    LexesBefore x depth (t.classDepth depth) (c :: cs) [t] rest := by
  unfold LexesBefore
  rw [List.cons_append, tokensFrom?_cons, h, Option.bind_some]
  dsimp only
  rw [List.drop_left]
  rfl

theorem Lexes.nil : Lexes x depth depth [] [] := fun _ => .nil

theorem Lexes.append (h : Lexes x depth depth' text ts) (h' : Lexes x depth' depth'' text' ts') :
    Lexes x depth depth'' (text ++ text') (ts ++ ts') :=
  fun rest => (h (text' ++ rest)).append (h' rest)

theorem Lexes.token {c : Char} {cs : List Char} {t : Token}
    (h : ∀ rest, token? x depth c (cs ++ rest) = some (t, cs.length)) :
    Lexes x depth (t.classDepth depth) (c :: cs) [t] :=
  fun rest => .token (h rest)

end Diglot.Host
