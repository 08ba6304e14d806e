import Diglot.Proofs.Emitted.Rereading

/-!
# Nothing is lost in scanning

For every text, scanning gives tokens that are the text cut into pieces, or a fault in the text. No
token is taken to go on after the end, and no fault is found further on than one character after it
(`scan_lossless`).
-/

namespace Diglot.Emitted

open Text

variable {cs : List Char} {n : Nat} {c closer : Char} {fault : Fault}

/-! ## Where faults are -/

theorem lengthThrough_error (h : lengthThrough closer cs = .error (fault, n)) : n = cs.length := by
  unfold lengthThrough at h
  split at h <;> cases h
  rfl

theorem lengthThrough_le (h : lengthThrough closer cs = .ok n) : n ≤ cs.length := by
  unfold lengthThrough at h
  split at h <;> cases h
  next hmem =>
    have hne : cs.takeWhile (· != closer) ≠ cs := fun heq => by
      have hall := List.all_eq_true.1 (List.all_takeWhile (p := (· != closer)) (l := cs))
      rw [heq] at hall
      simpa using hall closer (List.contains_iff_mem.1 hmem)
    exact Nat.lt_of_le_of_ne (List.takeWhile_sublist _).length_le fun hlength =>
      hne ((List.takeWhile_sublist _).eq_of_length hlength)

theorem digitCount_le (cs : List Char) : digitCount cs ≤ cs.length :=
  (List.takeWhile_sublist _).length_le

theorem classLength_error {depth m : Nat} (h : classLength depth n cs = .error (fault, m)) :
    m ≤ n + cs.length + 1 := by
  fun_induction classLength depth n cs with
  | case1 => cases h; exact Nat.le_succ _
  | case2 => cases h; exact Nat.le_refl _
  | case5 => cases h
  | _ =>
    rename_i ih
    have := ih h
    simp only [List.length_cons]
    omega

theorem atomThrough_error {m : Nat} (h : atomThrough closer m cs = .error (fault, n)) :
    n = cs.length + m := by
  unfold atomThrough at h
  split at h
  next => cases h
  next hthrough =>
    cases h
    rw [lengthThrough_error hthrough, Nat.add_comm]

theorem groupRecursion_error {body : List Char} {m : Nat}
    (h : groupRecursion body m = .error (fault, n)) : n = m := by
  unfold groupRecursion at h
  split at h
  next => cases h; rfl
  next =>
    split at h
    next => cases h; rfl
    next => split at h <;> cases h

theorem escape_error (h : escape cs = .error (fault, n)) : n ≤ cs.length := by
  unfold escape at h
  split at h
  next => cases h; exact Nat.le_refl 0
  next => cases h
  next => cases h
  next => exact (atomThrough_error h).le
  next rest =>
    split at h
    next k hk =>
      have hle := lengthThrough_le hk
      rw [groupRecursion_error h]
      simpa using hle
    next hthrough =>
      cases h
      simp [lengthThrough_error hthrough]
  iterate 4
    next => exact (atomThrough_error h).le
  next => cases h
  next => cases h
  next => cases h
  next =>
    split at h
    next =>
      dsimp only at h
      split at h
      next => cases h
      next => cases h; exact digitCount_le _
    next => cases h

theorem groupOpener_error (h : groupOpener cs = .error (fault, n)) : n ≤ cs.length := by
  unfold groupOpener at h
  split at h
  iterate 6
    next => cases h
  next rest _ _ =>
    split at h
    next => cases h
    next hthrough =>
      cases h
      simp [lengthThrough_error hthrough]
  next rest =>
    have hle := digitCount_le rest
    dsimp only at h
    split at h
    next =>
      cases h
      simpa using hle
    next hclose =>
      have hne : rest.drop (digitCount rest) ≠ [] := fun hnil => by simp [hnil] at hclose
      have hlt := List.length_pos_iff.2 hne
      rw [List.length_drop] at hlt
      split at h
      next => cases h
      next =>
        cases h
        simp only [List.length_cons]
        omega
  next rest _ _ _ _ _ _ _ _ =>
    have hle := (List.takeWhile_sublist (fun c => c.isAlpha || c = '-') (l := rest)).length_le
    dsimp only at h
    split at h
    next => cases h
    next =>
      cases h
      simpa using hle
  next => cases h

/-- A fault is in the text that is left, or one character after it: a backslash in a class takes the
next character with it. -/
theorem scanAfter_error (h : scanAfter c cs = .error (fault, n)) : n ≤ cs.length + 1 := by
  unfold scanAfter at h
  split at h
  next => exact Nat.le_succ_of_le (escape_error h)
  next =>
    cases hclass : classLength 0 0 cs with
    | ok m => rw [hclass] at h; cases h
    | error e =>
      rw [hclass] at h
      cases h
      have := classLength_error hclass
      omega
  next => exact Nat.le_succ_of_le (groupOpener_error h)
  iterate 7
    next => cases h
  next => split at h <;> cases h
  next => cases h

theorem exists_of_scanFrom_error {position : Nat} {e : Error}
    (h : scanFrom position cs = .error e) :
    ∃ q fault, e = .malformed q fault ∧ q ≤ position + cs.length + 1 := by
  fun_induction scanFrom position cs with
  | case1 => cases h
  | case2 position c cs fault n hscan =>
    cases h
    have hle := scanAfter_error hscan
    exact ⟨_, fault, rfl, by rw [List.length_cons]; omega⟩
  | case3 position c cs kind n hscan ih =>
    simp only [bind, Except.bind] at h
    split at h
    next e' hrest =>
      cases h
      obtain ⟨q, fault, rfl, hq⟩ := ih hrest
      have hle := scanAfter_le hscan
      rw [List.length_take_of_le hle, List.length_drop] at hq
      exact ⟨q, fault, rfl, by rw [List.length_cons]; omega⟩
    next => cases h

/-! ## What scanning gives -/

theorem Reads.text_ne_nil {ts : List Token} {follow : List Char} (h : Reads ts follow) :
    ∀ t ∈ ts, t.text ≠ [] := by
  induction ts with
  | nil => simp
  | cons t ts ih => exact List.forall_mem_cons.2 ⟨h.1.text_ne_nil, ih h.2⟩

/-- **Scanning cuts a text into pieces or finds a fault in it.** The tokens have texts that are not
empty and that are the whole text one after the other, and every token has just as many characters
as the scanner found it to have, so that none goes on after the end. -/
theorem scan_lossless (text : List Char) :
    (∃ ts, scan text = .ok ts ∧ (∀ t ∈ ts, t.text ≠ []) ∧ textOf ts = text ∧ Reads ts []) ∨
      ∃ position fault, scan text = .error (.malformed position fault) ∧
        position ≤ text.length + 1 := by
  cases h : scan text with
  | ok ts =>
    have hreads := reads_of_scan h
    exact .inl ⟨ts, rfl, hreads.text_ne_nil, scan_flatten h, hreads⟩
  | error e =>
    obtain ⟨position, fault, rfl, hle⟩ := exists_of_scanFrom_error h
    exact .inr ⟨position, fault, rfl, by omega⟩

end Diglot.Emitted
