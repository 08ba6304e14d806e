import Diglot.Error
import Mathlib.Tactic.Basic

/-!
# Taking computations apart

What follows from the success of a computation made of steps: each step succeeded.
-/

namespace Diglot

variable {α β σ : Type} {x : Except Error α} {a : α} {f : α → Except Error β} {b : β} {s s' : σ}

/-- To see whether a computation succeeds with a result of some kind, run it. -/
instance {P : α → Prop} [DecidablePred P] : Decidable (∃ a, x = .ok a ∧ P a) :=
  decidable_of_iff (x.toOption.any (fun a => decide (P a)) = true) (by
    cases x <;> simp [Except.toOption])

instance : Decidable (∃ a, x = .ok a) :=
  decidable_of_iff (x.toOption.isSome = true) (by cases x <;> simp [Except.toOption])

theorem exists_of_bind_eq_ok (h : x >>= f = .ok b) : ∃ a, x = .ok a ∧ f a = .ok b := by
  cases x with
  | error e => cases h
  | ok a => exact ⟨a, rfl, h⟩

theorem error_of_bind {e : Error} (h : x >>= f = .error e) :
    x = .error e ∨ ∃ a, x = .ok a ∧ f a = .error e := by
  cases x with
  | error => cases h; exact .inl rfl
  | ok a => exact .inr ⟨a, rfl, h⟩

/-- All of a list of computations succeed together; `g` says with what. -/
theorem eq_map_of_mapM {g : α → β} (hg : ∀ a b, f a = .ok b → g a = b) {as : List α} {bs : List β}
    (h : as.mapM f = .ok bs) : bs = as.map g ∧ ∀ a ∈ as, f a = .ok (g a) := by
  induction as generalizing bs with
  | nil => cases h; exact ⟨rfl, nofun⟩
  | cons a as ih =>
    rw [List.mapM_cons] at h
    obtain ⟨b, hb, h⟩ := exists_of_bind_eq_ok h
    obtain ⟨rest, hrest, h⟩ := exists_of_bind_eq_ok h
    cases h
    obtain ⟨rfl, hall⟩ := ih hrest
    obtain rfl := hg a b hb
    exact ⟨rfl, List.forall_mem_cons.2 ⟨hb, hall⟩⟩

theorem exists_of_run_bind {x : StateT σ (Except Error) α} {f : α → StateT σ (Except Error) β}
    (h : (x >>= f).run s = .ok (b, s')) :
    ∃ a t, x.run s = .ok (a, t) ∧ (f a).run t = .ok (b, s') := by
  rw [StateT.run_bind] at h
  obtain ⟨⟨a, t⟩, hx, hf⟩ := exists_of_bind_eq_ok h
  exact ⟨a, t, hx, hf⟩

theorem eq_of_run_pure {b : α} (h : (pure a : StateT σ (Except Error) α).run s = .ok (b, s')) :
    a = b ∧ s = s' := by
  cases h
  exact ⟨rfl, rfl⟩

theorem eq_of_run_lift (h : (liftM x : StateT σ (Except Error) α).run s = .ok (a, s')) :
    x = .ok a ∧ s = s' := by
  cases x with
  | error e => cases h
  | ok b =>
    cases h
    exact ⟨rfl, rfl⟩

/-- A check on the way changes nothing if it passes. -/
theorem run_of_guard {c : Prop} [Decidable c] {x : Except Error Unit}
    {f : Unit → StateT σ (Except Error) α}
    (h : (if c then (do let r ← liftM x; f r) else f ()).run s = .ok (a, s')) :
    (f ()).run s = .ok (a, s') := by
  split at h
  · obtain ⟨_, t, hx, h⟩ := exists_of_run_bind h
    obtain ⟨-, rfl⟩ := eq_of_run_lift hx
    exact h
  · exact h

end Diglot
