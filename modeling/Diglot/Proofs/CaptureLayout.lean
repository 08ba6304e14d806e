import Diglot.CaptureLayout
import Mathlib.Data.List.Basic
import Mathlib.Data.List.Sort

/-!
# What a capture layout says

A layout says which captures are hidden and which capture is reported under which. The operations on
layouts are described by what the result says, and they keep the lists of a layout in ascending
order. So a layout depends only on which operations have given it, and captures can get new numbers
before or after (`layoutOf_natural`).
-/

namespace Diglot

variable {s : Nat} {is : List Nat} {transfers : List (Nat × List Nat)} {x : Nat × List Nat}

theorem pairwise_insertAscending {ms : List Nat} (h : ms.Pairwise (· < ·)) (n : Nat) :
    (insertAscending n ms).Pairwise (· < ·) := by
  induction ms with
  | nil => exact List.pairwise_singleton _ n
  | cons m ms ih =>
    obtain ⟨hm, hms⟩ := List.pairwise_cons.1 h
    rw [insertAscending]
    split
    next hlt =>
      refine List.pairwise_cons.2 ⟨fun k hk => ?_, h⟩
      rcases List.mem_cons.1 hk with rfl | hk
      · exact hlt
      · exact Nat.lt_trans hlt (hm k hk)
    next hlt =>
      split
      next => exact h
      next hne =>
        refine List.pairwise_cons.2 ⟨fun k hk => ?_, ih hms⟩
        rcases mem_insertAscending.1 hk with rfl | hk
        · omega
        · exact hm k hk

namespace CaptureLayout

variable {l : CaptureLayout} {i d d' s' : Nat}

/-- One of the transfers is of `source` to `destination`. -/
def Among (transfers : List (Nat × List Nat)) (destination source : Nat) : Prop :=
  ∃ sources, (destination, sources) ∈ transfers ∧ source ∈ sources

theorem among_cons {d e : Nat} {sources : List Nat} {rest : List (Nat × List Nat)} :
    Among ((e, sources) :: rest) d s ↔ (d = e ∧ s ∈ sources) ∨ Among rest d s := by
  constructor
  · rintro ⟨found, hmem, hs⟩
    rcases List.mem_cons.1 hmem with heq | hmem
    · cases heq
      exact .inl ⟨rfl, hs⟩
    · exact .inr ⟨found, hmem, hs⟩
  · rintro (⟨rfl, hs⟩ | ⟨found, hmem, hs⟩)
    · exact ⟨sources, List.mem_cons_self, hs⟩
    · exact ⟨found, List.mem_cons_of_mem _ hmem, hs⟩

/-- The layout reports `source` under `destination`. -/
def Reports (l : CaptureLayout) (destination source : Nat) : Prop :=
  Among l.transfers destination source

/-- The lists of the layout are in ascending order, and every destination has a source. -/
structure Ascending (l : CaptureLayout) : Prop where
  hidden : l.hidden.Pairwise (· < ·)
  destinations : l.transfers.Pairwise (·.1 < ·.1)
  sources : ∀ x ∈ l.transfers, x.2 ≠ [] ∧ x.2.Pairwise (· < ·)

theorem ascending_empty : Ascending {} where
  hidden := .nil
  destinations := .nil
  sources := nofun

/-! ## Hiding -/

@[simp] theorem mem_hidden_hide : i ∈ (l.hide d).hidden ↔ i = d ∨ i ∈ l.hidden :=
  mem_insertAscending

@[simp] theorem reports_hide : (l.hide i).Reports d s ↔ l.Reports d s := Iff.rfl

theorem Ascending.hide (h : l.Ascending) : (l.hide i).Ascending :=
  ⟨pairwise_insertAscending h.hidden i, h.destinations, h.sources⟩

theorem mem_hidden_foldl_hide : i ∈ (is.foldl (·.hide ·) l).hidden ↔ i ∈ is ∨ i ∈ l.hidden := by
  induction is generalizing l with
  | nil => simp
  | cons j is ih => rw [List.foldl_cons, ih, mem_hidden_hide, List.mem_cons, or_left_comm, or_assoc]

theorem reports_foldl_hide : (is.foldl (·.hide ·) l).Reports d s ↔ l.Reports d s := by
  induction is generalizing l with
  | nil => exact Iff.rfl
  | cons j is ih => rw [List.foldl_cons, ih, reports_hide]

theorem Ascending.foldl_hide (h : l.Ascending) (is : List Nat) :
    (is.foldl (·.hide ·) l).Ascending := by
  induction is generalizing l with
  | nil => exact h
  | cons j is ih => exact ih h.hide

/-! ## Reporting -/

@[simp] theorem hidden_transfer : (l.transfer d s).hidden = l.hidden := rfl

theorem among_insertTransfer :
    Among (insertTransfer d s transfers) d' s' ↔ (d' = d ∧ s' = s) ∨ Among transfers d' s' := by
  induction transfers with
  | nil => simp [insertTransfer, among_cons]
  | cons x rest ih =>
    obtain ⟨e, sources⟩ := x
    rw [insertTransfer]
    split
    · rw [among_cons, List.mem_singleton]
    · split
      next hde =>
        subst hde
        rw [among_cons, among_cons, mem_insertAscending, and_or_left, or_assoc]
      next => rw [among_cons, among_cons, ih, or_left_comm]

theorem reports_transfer :
    (l.transfer d s).Reports d' s' ↔ (d' = d ∧ s' = s) ∨ l.Reports d' s' :=
  among_insertTransfer

theorem fst_mem_insertTransfer (h : x ∈ insertTransfer d s transfers) :
    x.1 = d ∨ ∃ y ∈ transfers, x.1 = y.1 := by
  induction transfers with
  | nil =>
    rw [List.mem_singleton.1 h]
    exact .inl rfl
  | cons y rest ih =>
    rw [insertTransfer] at h
    split at h
    · rcases List.mem_cons.1 h with rfl | h
      · exact .inl rfl
      · exact .inr ⟨x, h, rfl⟩
    · split at h
      · rcases List.mem_cons.1 h with rfl | h
        · exact .inr ⟨y, List.mem_cons_self, rfl⟩
        · exact .inr ⟨x, List.mem_cons_of_mem _ h, rfl⟩
      · rcases List.mem_cons.1 h with rfl | h
        · exact .inr ⟨y, List.mem_cons_self, rfl⟩
        · exact (ih h).imp_right fun ⟨z, hz, heq⟩ => ⟨z, List.mem_cons_of_mem _ hz, heq⟩

theorem pairwise_insertTransfer (h : transfers.Pairwise (·.1 < ·.1)) :
    (insertTransfer d s transfers).Pairwise (·.1 < ·.1) := by
  induction transfers with
  | nil => exact List.pairwise_singleton _ _
  | cons x rest ih =>
    obtain ⟨hx, hrest⟩ := List.pairwise_cons.1 h
    rw [insertTransfer]
    split
    next hlt =>
      refine List.pairwise_cons.2 ⟨fun y hy => ?_, h⟩
      rcases List.mem_cons.1 hy with rfl | hy
      · exact hlt
      · exact Nat.lt_trans hlt (hx y hy)
    next hlt =>
      split
      next => exact List.pairwise_cons.2 ⟨hx, hrest⟩
      next hne =>
        refine List.pairwise_cons.2 ⟨fun y hy => ?_, ih hrest⟩
        rcases fst_mem_insertTransfer hy with hd | ⟨z, hz, heq⟩
        · show x.1 < y.1
          omega
        · show x.1 < y.1
          rw [heq]
          exact hx z hz

theorem sources_insertTransfer (h : ∀ x ∈ transfers, x.2 ≠ [] ∧ x.2.Pairwise (· < ·)) :
    ∀ x ∈ insertTransfer d s transfers, x.2 ≠ [] ∧ x.2.Pairwise (· < ·) := by
  have hsingle : [s] ≠ [] ∧ [s].Pairwise (· < ·) := ⟨nofun, List.pairwise_singleton _ _⟩
  induction transfers with
  | nil =>
    intro x hx
    rw [List.mem_singleton.1 hx]
    exact hsingle
  | cons y rest ih =>
    rw [List.forall_mem_cons] at h
    rw [insertTransfer]
    split
    · exact List.forall_mem_cons.2 ⟨hsingle, List.forall_mem_cons.2 h⟩
    · split
      · have hmem : s ∈ insertAscending s y.2 := mem_insertAscending.2 (.inl rfl)
        exact List.forall_mem_cons.2
          ⟨⟨List.ne_nil_of_mem hmem, pairwise_insertAscending h.1.2 s⟩, h.2⟩
      · exact List.forall_mem_cons.2 ⟨h.1, ih h.2⟩

theorem Ascending.transfer (h : l.Ascending) : (l.transfer d s).Ascending :=
  ⟨h.hidden, pairwise_insertTransfer h.destinations, sources_insertTransfer h.sources⟩

theorem reports_of_destinationOf (h : l.destinationOf s = some d) : l.Reports d s := by
  rw [destinationOf, Option.map_eq_some_iff] at h
  obtain ⟨x, hx, rfl⟩ := h
  have hs := List.find?_some hx
  exact ⟨x.2, List.mem_of_find?_eq_some hx, by simpa using hs⟩

theorem destinationOf_eq_none (h : ∀ d, ¬ l.Reports d s) : l.destinationOf s = none := by
  rw [Option.eq_none_iff_forall_ne_some]
  exact fun d hd => h d (reports_of_destinationOf hd)

theorem exists_destinationOf (h : l.Reports d s) : ∃ d', l.destinationOf s = some d' := by
  obtain ⟨sources, hmem, hs⟩ := h
  rw [← Option.isSome_iff_exists, destinationOf, Option.isSome_map, List.find?_isSome]
  exact ⟨_, hmem, by simpa using hs⟩

/-- If the capture is reported under one capture only, that one is found. -/
theorem destinationOf_eq_some (h : l.Reports d s) (hu : ∀ d', l.Reports d' s → d' = d) :
    l.destinationOf s = some d := by
  obtain ⟨d', hd'⟩ := exists_destinationOf h
  rw [hd', hu d' (reports_of_destinationOf hd')]

/-- The first one is found of several captures that a capture is reported under. -/
theorem Ascending.destinationOf_le (h : l.Ascending) (hd : l.destinationOf s = some d)
    (hd' : l.Reports d' s) : d ≤ d' := by
  obtain ⟨sources, hmem, hs⟩ := hd'
  rw [destinationOf, Option.map_eq_some_iff] at hd
  obtain ⟨x, hx, rfl⟩ := hd
  obtain ⟨-, before, after, hsplit, hbefore⟩ := List.find?_eq_some_iff_append.1 hx
  have hsorted := h.destinations
  rw [hsplit] at hmem hsorted
  rcases List.mem_append.1 hmem with hmem | hmem
  · simpa [hs] using hbefore _ hmem
  · rcases List.mem_cons.1 hmem with heq | hmem
    · exact heq ▸ Nat.le_refl _
    · have hafter := (List.pairwise_cons.1 (List.pairwise_append.1 hsorted).2.1).1
      exact Nat.le_of_lt (hafter _ hmem)

/-! ## New numbers -/

section

variable {f : Nat → Option Nat}

theorem hidden_foldl_transfer : (is.foldl (·.transfer d ·) l).hidden = l.hidden := by
  induction is generalizing l with
  | nil => rfl
  | cons i is ih => rw [List.foldl_cons, ih, hidden_transfer]

theorem reports_foldl_transfer {d' : Nat} :
    (is.foldl (·.transfer d' ·) l).Reports d s ↔ (d = d' ∧ s ∈ is) ∨ l.Reports d s := by
  induction is generalizing l with
  | nil => simp
  | cons i is ih =>
    rw [List.foldl_cons, ih, reports_transfer, List.mem_cons, ← or_assoc, ← and_or_left,
      or_comm (a := s ∈ is)]

theorem Ascending.foldl_transfer (h : l.Ascending) (is : List Nat) :
    (is.foldl (·.transfer d ·) l).Ascending := by
  induction is generalizing l with
  | nil => exact h
  | cons i is ih => exact ih h.transfer

/-- One destination with its sources gets new numbers. -/
def renumberTransfer (f : Nat → Option Nat) (found : CaptureLayout) (x : Nat × List Nat) :
    CaptureLayout :=
  match f x.1 with
  | none => found
  | some d => (x.2.filterMap f).foldl (·.transfer d ·) found

theorem renumber_eq : l.renumber f
    = l.transfers.foldl (renumberTransfer f) ((l.hidden.filterMap f).foldl hide {}) := rfl

theorem hidden_renumberTransfer : (renumberTransfer f l x).hidden = l.hidden := by
  unfold renumberTransfer
  split
  · rfl
  · exact hidden_foldl_transfer

theorem reports_renumberTransfer :
    (renumberTransfer f l x).Reports d s ↔
      (f x.1 = some d ∧ s ∈ x.2.filterMap f) ∨ l.Reports d s := by
  unfold renumberTransfer
  split
  next hf => simp [hf]
  next d' hf => rw [reports_foldl_transfer, hf, Option.some_inj, eq_comm]

theorem Ascending.renumberTransfer (h : l.Ascending) (x : Nat × List Nat) :
    (renumberTransfer f l x).Ascending := by
  unfold CaptureLayout.renumberTransfer
  split
  · exact h
  · exact h.foldl_transfer _

theorem mem_hidden_renumber :
    i ∈ (l.renumber f).hidden ↔ ∃ j ∈ l.hidden, f j = some i := by
  have hfold : ∀ (xs : List (Nat × List Nat)) (found : CaptureLayout),
      (xs.foldl (renumberTransfer f) found).hidden = found.hidden := by
    intro xs
    induction xs with
    | nil => exact fun _ => rfl
    | cons x xs ih =>
      intro found
      rw [List.foldl_cons, ih, hidden_renumberTransfer]
  rw [renumber_eq, hfold, mem_hidden_foldl_hide, List.mem_filterMap]
  simp

theorem reports_renumber : (l.renumber f).Reports d s ↔
    ∃ d' s', l.Reports d' s' ∧ f d' = some d ∧ f s' = some s := by
  have hfold : ∀ (xs : List (Nat × List Nat)) (found : CaptureLayout),
      (xs.foldl (renumberTransfer f) found).Reports d s ↔
        (∃ d' s', Among xs d' s' ∧ f d' = some d ∧ f s' = some s) ∨ found.Reports d s := by
    intro xs
    induction xs with
    | nil =>
      intro found
      simp [Among]
    | cons x xs ih =>
      obtain ⟨e, sources⟩ := x
      intro found
      rw [List.foldl_cons, ih, reports_renumberTransfer, List.mem_filterMap]
      constructor
      · rintro (⟨d', s', h, hf⟩ | ⟨hd, s', hs', hf⟩ | h)
        · exact .inl ⟨d', s', among_cons.2 (.inr h), hf⟩
        · exact .inl ⟨e, s', among_cons.2 (.inl ⟨rfl, hs'⟩), hd, hf⟩
        · exact .inr h
      · rintro (⟨d', s', h, hd, hs⟩ | h)
        · rcases among_cons.1 h with ⟨rfl, hs'⟩ | h
          · exact .inr (.inl ⟨hd, s', hs', hs⟩)
          · exact .inl ⟨d', s', h, hd, hs⟩
        · exact .inr (.inr h)
  have hstart : ¬ ((l.hidden.filterMap f).foldl hide {}).Reports d s := by
    rw [reports_foldl_hide]
    rintro ⟨sources, hmem, -⟩
    cases hmem
  rw [renumber_eq, hfold, or_iff_left hstart]
  rfl

theorem ascending_renumber : (l.renumber f).Ascending := by
  have hfold : ∀ (xs : List (Nat × List Nat)) (found : CaptureLayout), found.Ascending →
      (xs.foldl (renumberTransfer f) found).Ascending := by
    intro xs
    induction xs with
    | nil => exact fun _ h => h
    | cons x xs ih => exact fun _ h => ih _ (h.renumberTransfer x)
  exact hfold _ _ (ascending_empty.foldl_hide _)

end

/-! ## Layouts that say the same -/

section

variable {l' : CaptureLayout} {sources : List Nat}

/-- A destination has its sources in one place. -/
theorem Ascending.mem_sources (h : l.Ascending) (hmem : (d, sources) ∈ l.transfers) :
    s ∈ sources ↔ l.Reports d s := by
  constructor
  · exact fun hs => ⟨sources, hmem, hs⟩
  · rintro ⟨others, hothers, hs⟩
    obtain ⟨i, hi, hsources⟩ := List.getElem_of_mem hmem
    obtain ⟨j, hj, hother⟩ := List.getElem_of_mem hothers
    have hlt := List.pairwise_iff_getElem.1 h.destinations
    rcases Nat.lt_trichotomy i j with hij | rfl | hij
    · have := hlt i j hi hj hij
      rw [hsources, hother] at this
      exact absurd this (Nat.lt_irrefl d)
    · cases hsources.symm.trans hother
      exact hs
    · have := hlt j i hj hi hij
      rw [hsources, hother] at this
      exact absurd this (Nat.lt_irrefl d)

theorem Ascending.transfers_subset (h : l.Ascending) (h' : l'.Ascending)
    (hreports : ∀ d s, l.Reports d s ↔ l'.Reports d s) : l.transfers ⊆ l'.transfers := by
  rintro ⟨d, sources⟩ hmem
  obtain ⟨hne, hsorted⟩ := h.sources _ hmem
  obtain ⟨s, hs⟩ := List.exists_mem_of_ne_nil sources hne
  obtain ⟨sources', hmem', -⟩ := (hreports d s).1 ⟨sources, hmem, hs⟩
  have hsame : sources = sources' := hsorted.eq_of_mem_iff (h'.sources _ hmem').2 fun s => by
    rw [h.mem_sources hmem, hreports, h'.mem_sources hmem']
  rwa [hsame]

/-- Layouts that report the same have the same transfers. -/
theorem Ascending.transfers_eq (h : l.Ascending) (h' : l'.Ascending)
    (hreports : ∀ d s, l.Reports d s ↔ l'.Reports d s) : l.transfers = l'.transfers := by
  have hantisymm : Std.Antisymm fun x y : Nat × List Nat => x.1 < y.1 :=
    ⟨fun _ _ hxy hyx => absurd hyx (Nat.lt_asymm hxy)⟩
  have hirrefl : Std.Irrefl fun x y : Nat × List Nat => x.1 < y.1 := ⟨fun x => Nat.lt_irrefl x.1⟩
  exact List.Subset.antisymm_of_pairwise h.destinations h'.destinations
    (h.transfers_subset h' hreports) (h'.transfers_subset h fun d s => (hreports d s).symm)

/-- The transfers with other numbers. -/
def mapTransfers (f : Nat → Nat) (l : CaptureLayout) : List (Nat × List Nat) :=
  l.transfers.map fun x => (f x.1, x.2.map f)

variable {f : Nat → Nat}

theorem among_mapTransfers : Among (l.mapTransfers f) d s ↔
    ∃ d' s', l.Reports d' s' ∧ f d' = d ∧ f s' = s := by
  constructor
  · rintro ⟨_, hmem, hs⟩
    obtain ⟨⟨d', sources⟩, hold, heq⟩ := List.mem_map.1 hmem
    cases heq
    obtain ⟨s', hs', rfl⟩ := List.mem_map.1 hs
    exact ⟨d', s', ⟨sources, hold, hs'⟩, rfl, rfl⟩
  · rintro ⟨d', s', ⟨sources, hold, hs'⟩, rfl, rfl⟩
    exact ⟨sources.map f, List.mem_map.2 ⟨(d', sources), hold, rfl⟩, List.mem_map_of_mem hs'⟩

/-- A map that keeps the order of the numbers in a layout keeps it ascending. -/
theorem Ascending.mapTransfers {p : Nat → Prop} (h : l.Ascending)
    (hp : ∀ d s, l.Reports d s → p d ∧ p s) (hf : ∀ i j, p i → p j → i < j → f i < f j) :
    Ascending ⟨[], l.mapTransfers f⟩ where
  hidden := .nil
  destinations := by
    have hdestination : ∀ x ∈ l.transfers, p x.1 := by
      intro x hx
      obtain ⟨s, hs⟩ := List.exists_mem_of_ne_nil _ (h.sources x hx).1
      exact (hp x.1 s ⟨x.2, hx, hs⟩).1
    refine List.pairwise_map.2 (h.destinations.imp_of_mem fun {x y} hx hy hlt => ?_)
    exact hf _ _ (hdestination x hx) (hdestination y hy) hlt
  sources := by
    intro x hx
    obtain ⟨y, hy, rfl⟩ := List.mem_map.1 hx
    obtain ⟨hne, hsorted⟩ := h.sources y hy
    refine ⟨by simpa using hne, List.pairwise_map.2 (hsorted.imp_of_mem fun {i j} hi hj hlt => ?_)⟩
    exact hf _ _ (hp _ _ ⟨y.2, hy, hi⟩).2 (hp _ _ ⟨y.2, hy, hj⟩).2 hlt

end

/-! ## Sequences of operations -/

/-- What is done to a layout. -/
inductive Operation where
  | hide (i : Nat)
  | transfer (destination source : Nat)
  deriving DecidableEq

/-- The operation on captures with new numbers, if all of them have one. -/
def Operation.renumber (f : Nat → Option Nat) : Operation → Option Operation
  | .hide i => (f i).map .hide
  | .transfer d s => (f d).bind fun d' => (f s).map (.transfer d')

def apply (l : CaptureLayout) : Operation → CaptureLayout
  | .hide i => l.hide i
  | .transfer d s => l.transfer d s

/-- The layout after some operations. -/
def layoutOf (ops : List Operation) : CaptureLayout :=
  ops.foldl apply {}

/-- The layout says what the operations say, and nothing else. -/
structure Says (l : CaptureLayout) (p : Operation → Prop) : Prop where
  ascending : l.Ascending
  hidden : ∀ i, i ∈ l.hidden ↔ p (.hide i)
  reports : ∀ d s, l.Reports d s ↔ p (.transfer d s)

section

variable {l' : CaptureLayout} {p q : Operation → Prop} {ops : List Operation}
  {f : Nat → Option Nat}

theorem Says.unique (h : l.Says p) (h' : l'.Says q) (hpq : ∀ op, p op ↔ q op) : l = l' := by
  have hhidden : l.hidden = l'.hidden := h.ascending.hidden.eq_of_mem_iff h'.ascending.hidden
    fun i => by rw [h.hidden, h'.hidden, hpq]
  have htransfers : l.transfers = l'.transfers := h.ascending.transfers_eq h'.ascending
    fun d s => by rw [h.reports, h'.reports, hpq]
  cases l
  cases l'
  cases hhidden
  cases htransfers
  rfl

theorem Says.apply (h : l.Says p) (op : Operation) : (l.apply op).Says fun o => o = op ∨ p o := by
  cases op with
  | hide i => exact ⟨h.ascending.hide, by simp [CaptureLayout.apply, h.hidden],
      by simp [CaptureLayout.apply, h.reports]⟩
  | transfer d s => exact ⟨h.ascending.transfer, by simp [CaptureLayout.apply, h.hidden],
      by simp [CaptureLayout.apply, reports_transfer, h.reports]⟩

theorem Says.foldl_apply (h : l.Says p) (ops : List Operation) :
    (ops.foldl CaptureLayout.apply l).Says fun o => o ∈ ops ∨ p o := by
  induction ops generalizing l p with
  | nil => simpa using h
  | cons op ops ih =>
    have hrun := ih (h.apply op)
    simpa [or_left_comm, or_assoc] using hrun

theorem says_layoutOf (ops : List Operation) : (layoutOf ops).Says (· ∈ ops) := by
  have hempty : Says {} fun _ => False := ⟨ascending_empty, by simp, by simp [Reports, Among]⟩
  simpa [layoutOf] using hempty.foldl_apply ops

theorem Says.renumber (h : l.Says p) :
    (l.renumber f).Says fun o => ∃ op, p op ∧ op.renumber f = some o where
  ascending := ascending_renumber
  hidden := by
    intro i
    rw [mem_hidden_renumber]
    constructor
    · rintro ⟨j, hj, hf⟩
      exact ⟨.hide j, (h.hidden j).1 hj, by simp [Operation.renumber, hf]⟩
    · rintro ⟨op, hop, hf⟩
      cases op with
      | hide j => exact ⟨j, (h.hidden j).2 hop, by simpa [Operation.renumber] using hf⟩
      | transfer d s => simp [Operation.renumber, Option.bind_eq_some_iff] at hf
  reports := by
    intro d s
    rw [reports_renumber]
    constructor
    · rintro ⟨d', s', hr, hd, hs⟩
      exact ⟨.transfer d' s', (h.reports d' s').1 hr, by simp [Operation.renumber, hd, hs]⟩
    · rintro ⟨op, hop, hf⟩
      cases op with
      | hide j => simp [Operation.renumber] at hf
      | transfer d' s' =>
        refine ⟨d', s', (h.reports d' s').2 hop, ?_⟩
        simpa [Operation.renumber, Option.bind_eq_some_iff] using hf

/-- The layout says something about the capture. -/
def Mentions (l : CaptureLayout) (i : Nat) : Prop :=
  i ∈ l.hidden ∨ ∃ j, l.Reports i j ∨ l.Reports j i

theorem Says.isSome_renumber (h : l.Says p) (hmentions : ∀ i, l.Mentions i → (f i).isSome)
    {op : Operation} (hop : p op) : (op.renumber f).isSome := by
  cases op with
  | hide i =>
    have hi := hmentions i (.inl ((h.hidden i).2 hop))
    simpa [Operation.renumber] using hi
  | transfer d s =>
    have hr := (h.reports d s).2 hop
    obtain ⟨d', hd⟩ := Option.isSome_iff_exists.1 (hmentions d (.inr ⟨s, .inl hr⟩))
    obtain ⟨s', hs⟩ := Option.isSome_iff_exists.1 (hmentions s (.inr ⟨d, .inr hr⟩))
    simp [Operation.renumber, hd, hs]

/-- New numbers that keep the order also go to the captures that are found. -/
theorem Ascending.destinationOf_renumber (h : l.Ascending)
    (hmentions : ∀ i, l.Mentions i → (f i).isSome)
    (hf : ∀ {i j m n}, f i = some m → f j = some n → i < j → m < n) {t : Nat} (ht : f s = some t) :
    (l.renumber f).destinationOf t = (l.destinationOf s).bind f := by
  -- no two captures get the same number
  have hsource {s' : Nat} (hs' : f s' = some t) : s' = s := by
    rcases Nat.lt_trichotomy s' s with hlt | heq | hlt
    · exact absurd (hf hs' ht hlt) (Nat.lt_irrefl t)
    · exact heq
    · exact absurd (hf ht hs' hlt) (Nat.lt_irrefl t)
  cases hd : l.destinationOf s with
  | none =>
    refine destinationOf_eq_none fun d hr => ?_
    obtain ⟨d', s', hr, -, hs'⟩ := reports_renumber.1 hr
    obtain ⟨e, he⟩ := exists_destinationOf (hsource hs' ▸ hr)
    rw [hd] at he
    cases he
  | some d =>
    have hr := reports_of_destinationOf hd
    obtain ⟨d', hd'⟩ := Option.isSome_iff_exists.1 (hmentions d (.inr ⟨s, .inl hr⟩))
    have hnew : (l.renumber f).Reports d' t := reports_renumber.2 ⟨d, s, hr, hd', ht⟩
    obtain ⟨e, he⟩ := exists_destinationOf hnew
    obtain ⟨e', s', hold, he', hs'⟩ := reports_renumber.1 (reports_of_destinationOf he)
    have hle : d ≤ e' := h.destinationOf_le hd (hsource hs' ▸ hold)
    have hge : e ≤ d' := ascending_renumber.destinationOf_le he hnew
    rcases Nat.lt_or_eq_of_le hle with hlt | rfl
    · exact absurd (hf hd' he' hlt) (Nat.not_lt.2 hge)
    · rw [he, Option.bind_some, he']

/-- **A layout depends only on which operations have given it, and new numbers that keep the order
can be given to its captures or to those of the operations.** -/
theorem layoutOf_natural (ops : List Operation) :
    (∀ ops', (∀ op, op ∈ ops' ↔ op ∈ ops) → layoutOf ops' = layoutOf ops) ∧
    (∀ x ∈ (layoutOf ops).transfers, x.2.Pairwise (· < ·)) ∧
    ∀ f : Nat → Option Nat, (∀ {i j m n}, f i = some m → f j = some n → i < j → m < n) →
      (∀ i, (layoutOf ops).Mentions i → (f i).isSome) →
      (∃ ops', ops.map (·.renumber f) = ops'.map some ∧
        (layoutOf ops).renumber f = layoutOf ops') ∧
      ∀ s t, f s = some t → ((layoutOf ops).renumber f).destinationOf t
        = ((layoutOf ops).destinationOf s).bind f := by
  have hrun := says_layoutOf ops
  refine ⟨fun ops' h => (says_layoutOf ops').unique hrun h,
    fun x hx => (hrun.ascending.sources x hx).2, fun f hf hmentions => ⟨?_, fun s t ht => ?_⟩⟩
  · have hall : ∀ o ∈ ops.map (·.renumber f), o.isSome :=
      List.forall_mem_map.2 fun op hop => hrun.isSome_renumber hmentions hop
    refine ⟨ops.filterMap (·.renumber f), ?_, ?_⟩
    · rw [List.map_filterMap_some_eq_filter_map_isSome, List.filter_eq_self.2 hall]
    · exact hrun.renumber.unique (says_layoutOf _) fun op => List.mem_filterMap.symm
  · exact hrun.ascending.destinationOf_renumber hmentions hf ht

/-- A capture that is reported under two others. -/
theorem layoutOf_natural_twice :
    layoutOf [.hide 4, .transfer 1 4, .transfer 3 4]
      = layoutOf [.transfer 3 4, .transfer 1 4, .hide 4, .transfer 3 4] ∧
    ((layoutOf [.transfer 3 4, .transfer 1 4, .hide 4, .transfer 3 4]).renumber
      fun i => some (2 * i)).destinationOf 8 = some 2 := by
  obtain ⟨hsame, -, hnew⟩ := layoutOf_natural [.transfer 3 4, .transfer 1 4, .hide 4, .transfer 3 4]
  refine ⟨hsame _ fun op => ?_, ?_⟩
  · simp only [List.mem_cons, List.not_mem_nil]
    grind
  · exact (hnew (fun i => some (2 * i)) (by simp) (by simp)).2 4 8 rfl

end

end CaptureLayout

end Diglot
