import Diglot.Error

/-!
# Cursors and readers

A cursor is a place in a pattern text. A reader takes characters at a cursor and ends at another
one, whether it succeeds or not. The type of readers says that a reader never goes back behind the
place where it began, so whatever calls one again and again makes progress or stays where it is.
-/

namespace Diglot.Source

/-- What is left of a text, and how many characters stand before it. -/
structure Cursor where
  pos : Nat
  rest : List Char
  deriving DecidableEq, Repr

namespace Cursor

def start (text : List Char) : Cursor := ⟨0, text⟩

def peek? (c : Cursor) : Option Char := c.rest.head?

/-- `d` lies at `c` or after it, in the same text. -/
def Reaches (c d : Cursor) : Prop :=
  ∃ read, c.rest = read ++ d.rest ∧ d.pos = c.pos + read.length

theorem Reaches.refl (c : Cursor) : c.Reaches c := ⟨[], by simp⟩

theorem Reaches.trans {c d e : Cursor} (hcd : c.Reaches d) (hde : d.Reaches e) : c.Reaches e := by
  obtain ⟨r, hr, hp⟩ := hcd
  obtain ⟨s, hs, hq⟩ := hde
  exact ⟨r ++ s, by simp [hr, hs], by simp [hp, hq]; omega⟩

/-- Reading leaves no more than there was. -/
theorem Reaches.length_le {c d : Cursor} (h : c.Reaches d) : d.rest.length ≤ c.rest.length := by
  obtain ⟨r, hr, _⟩ := h
  simp [hr]

/-- Reading stays in the text: what stands before and after the cursor adds up to the same
length. -/
theorem Reaches.total {c d : Cursor} (h : c.Reaches d) :
    d.pos + d.rest.length = c.pos + c.rest.length := by
  obtain ⟨r, hr, hp⟩ := h
  simp [hr, hp]; omega

/-- The cursor `n` characters further on, or the end. -/
def advance (c : Cursor) (n : Nat) : Cursor :=
  ⟨c.pos + (c.rest.take n).length, c.rest.drop n⟩

theorem reaches_advance (c : Cursor) (n : Nat) : c.Reaches (c.advance n) :=
  ⟨c.rest.take n, by simp [advance], rfl⟩

end Cursor

/-- Takes characters at a cursor; gives a value or an error, and the cursor where it stopped. -/
structure Reader (α : Type) where
  run : (c : Cursor) → Except Error α × { d : Cursor // c.Reaches d }

namespace Reader

/-- The reader that takes nothing. -/
def done {α : Type} (a : α) : Reader α :=
  ⟨fun c => (.ok a, ⟨c, .refl c⟩)⟩

/-- One reader after another; an error ends the reading where it arises. -/
def next {α β : Type} (r : Reader α) (f : α → Reader β) : Reader β :=
  ⟨fun c =>
    match r.run c with
    | (.error e, d) => (.error e, d)
    | (.ok a, d) => (((f a).run d.1).1, ⟨((f a).run d.1).2.1, d.2.trans ((f a).run d.1).2.2⟩)⟩

instance : Monad Reader where
  pure := done
  bind := next

/-- The reader that fails without taking anything. -/
def fail {α : Type} (e : Error) : Reader α :=
  ⟨fun c => (.error e, ⟨c, .refl c⟩)⟩

/-- The reader that finds the text malformed at a position. -/
def failAt {α : Type} (position : Nat) (fault : Fault) : Reader α :=
  fail (.malformed position fault)

/-- Takes as many characters as `f` says, and gives its value. -/
def takeBy {α : Type} (f : List Char → α × Nat) : Reader α :=
  ⟨fun c => (.ok (f c.rest).1, ⟨c.advance (f c.rest).2, c.reaches_advance _⟩)⟩

/-- Asks something about the cursor. -/
def ask {α : Type} (f : Cursor → α) : Reader α :=
  ⟨fun c => (.ok (f c), ⟨c, .refl c⟩)⟩

def position : Reader Nat := ask (·.pos)

/-- The character at the cursor, which stays there. -/
def peek? : Reader (Option Char) := ask (·.peek?)

def char? : Reader (Option Char) := takeBy fun cs => (cs.head?, 1)

def skip (n : Nat) : Reader Unit := takeBy fun _ => ((), n)

/-- Takes the given character if it is next, and says whether it was. -/
def eat (x : Char) : Reader Bool :=
  takeBy fun cs => if cs.head? = some x then (true, 1) else (false, 0)

/-- Takes the longest run of characters that satisfy `p`. -/
def takeWhile (p : Char → Bool) : Reader (List Char) :=
  takeBy fun cs => (cs.takeWhile p, (cs.takeWhile p).length)

/-- Takes the longest run of at most `n` characters that satisfy `p`. -/
def takeAtMost (n : Nat) (p : Char → Bool) : Reader (List Char) :=
  takeBy fun cs => ((cs.take n).takeWhile p, ((cs.take n).takeWhile p).length)

/-- Goes back to where the reader began if it finds nothing. -/
def orBack {α : Type} (r : Reader (Option α)) : Reader (Option α) :=
  ⟨fun c =>
    match r.run c with
    | (.ok none, _) => (.ok none, ⟨c, .refl c⟩)
    | found => found⟩

end Reader

end Diglot.Source
