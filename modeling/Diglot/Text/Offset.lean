/-!
# Byte offsets

Callers count the bytes of a text in UTF-8, while matching counts its characters. An offset that
does not fall between two characters stands for no position.
-/

namespace Diglot.Text

/-- The offset of the position after the first `i` characters. -/
def offsetOf (cs : List Char) (i : Nat) : Nat :=
  (cs.take i).foldr (fun c n => c.utf8Size + n) 0

/-- The offsets of all positions. -/
def offsetTable (cs : List Char) : Array Nat :=
  cs.foldl (fun table c => table.push (table.back?.getD 0 + c.utf8Size)) #[0]

/-- The offset of a position, looked up in a table. Behind the end it is that of the end. -/
def offsetIn (table : Array Nat) (i : Nat) : Nat :=
  (table[i]?.or table.back?).getD 0

/-- The position at an offset, if the offset falls between two characters or at an end. -/
def indexAt? : List Char → Nat → Option Nat
  | _, 0 => some 0
  | [], _ + 1 => none
  | c :: cs, n + 1 =>
    if c.utf8Size ≤ n + 1 then (indexAt? cs (n + 1 - c.utf8Size)).map (· + 1) else none

@[simp] theorem offsetOf_zero (cs : List Char) : offsetOf cs 0 = 0 := by
  simp [offsetOf]

@[simp] theorem offsetOf_cons_succ (c : Char) (cs : List Char) (i : Nat) :
    offsetOf (c :: cs) (i + 1) = c.utf8Size + offsetOf cs i := by
  simp [offsetOf]

/-- A table that is continued from offset `n` on has the offsets of the further positions. -/
theorem foldl_push_offset (cs : List Char) (table : Array Nat) (n : Nat)
    (h : table.back? = some n) :
    cs.foldl (fun table c => table.push (table.back?.getD 0 + c.utf8Size)) table
      = table ++ ((List.range' 1 cs.length).map fun i => n + offsetOf cs i).toArray := by
  induction cs generalizing table n with
  | nil => simp
  | cons c cs ih =>
    rw [List.foldl_cons, ih _ (n + c.utf8Size) (by simp [h])]
    simp only [h, Option.getD_some, List.length_cons, List.range'_succ, List.map_cons]
    rw [offsetOf_cons_succ, offsetOf_zero]
    have tail : (List.range' (1 + 1) cs.length).map (fun i => n + offsetOf (c :: cs) i)
        = (List.range' 1 cs.length).map fun i => n + c.utf8Size + offsetOf cs i := by
      rw [List.range'_succ_left, List.map_map]
      apply List.map_congr_left
      intro i _
      simp only [Function.comp_apply, offsetOf_cons_succ]
      omega
    rw [tail, Array.push_eq_append, Array.append_assoc]
    simp

/-- The table has the offset of every position. -/
theorem offsetTable_eq (cs : List Char) :
    offsetTable cs = ((List.range (cs.length + 1)).map (offsetOf cs)).toArray := by
  rw [offsetTable, foldl_push_offset cs #[0] 0 (by simp), List.range_eq_range', List.range'_succ]
  simp

/-- Behind the end of a text there are no further offsets. -/
theorem offsetOf_of_length_le {cs : List Char} {i : Nat} (h : cs.length ≤ i) :
    offsetOf cs i = offsetOf cs cs.length := by
  simp [offsetOf, List.take_of_length_le h]

/-- Looking an offset up in the table gives the offset of the position. -/
theorem offsetIn_offsetTable (cs : List Char) (i : Nat) :
    offsetIn (offsetTable cs) i = offsetOf cs i := by
  rw [offsetTable_eq, offsetIn]
  by_cases h : i < cs.length + 1
  · simp [h]
  · have outside : (List.range (cs.length + 1))[i]? = none := by
      simp
      omega
    rw [offsetOf_of_length_le (show cs.length ≤ i by omega)]
    simp [outside, List.getLast?_range]

/-- An offset that stands for a position is the offset of that position. -/
theorem offsetOf_of_indexAt? {cs : List Char} {n i : Nat} (h : indexAt? cs n = some i) :
    offsetOf cs i = n := by
  induction cs generalizing n i with
  | nil =>
    cases n with
    | zero => cases h; simp
    | succ n => cases h
  | cons c cs ih =>
    cases n with
    | zero => cases h; simp
    | succ n =>
      simp only [indexAt?] at h
      split at h
      · obtain ⟨j, hj, rfl⟩ := Option.map_eq_some_iff.1 h
        rw [offsetOf_cons_succ, ih hj]
        omega
      · cases h

/-- Offsets between characters stand for positions. -/
theorem indexAt?_offsetOf {cs : List Char} {i : Nat} (h : i ≤ cs.length) :
    indexAt? cs (offsetOf cs i) = some i := by
  induction cs generalizing i with
  | nil =>
    rw [Nat.le_zero.1 h]
    rfl
  | cons c cs ih =>
    cases i with
    | zero => rw [offsetOf_zero, indexAt?]
    | succ i =>
      have hpos := Char.utf8Size_pos c
      obtain ⟨n, hn⟩ : ∃ n, c.utf8Size + offsetOf cs i = n + 1 :=
        ⟨c.utf8Size + offsetOf cs i - 1, by omega⟩
      rw [offsetOf_cons_succ, hn, indexAt?, if_pos (by omega), ← hn,
        Nat.add_sub_cancel_left, ih (Nat.le_of_succ_le_succ h)]
      rfl

end Diglot.Text
