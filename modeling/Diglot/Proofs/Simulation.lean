import Diglot.Proofs.Outcome

/-!
# Computations that succeed together

One computation refines another if it succeeds only when the other does, with a related result, and
fails for known reasons. The two may be runs of one function under different options: then a step that
one of them refuses has to be refused by the other too.
-/

namespace Diglot

variable {α β γ δ σ τ : Type} {a : α} {b : β} {x : Except Error α} {y : Except Error β}
  {f : α → Except Error γ} {g : β → Except Error δ} {c c' : Prop} {s : σ} {t : τ}
  {E E' : Error → Prop}

/-! ## Reasons to fail -/

/-- Every error of the computation satisfies `E`. -/
def Fails (E : Error → Prop) (x : Except Error α) : Prop :=
  ∀ e, x = .error e → E e

namespace Fails

theorem ok (a : α) : Fails E (.ok a) := by
  intro e h
  cases h

theorem error {e : Error} (h : E e) : Fails E (.error e : Except Error α) := by
  intro e' h'
  cases h'
  exact h

theorem bind (hx : Fails E x) (hf : ∀ a, Fails E (f a)) : Fails E (x >>= f) := by
  intro e h
  rcases error_of_bind h with h | ⟨a, -, h⟩
  · exact hx e h
  · exact hf a e h

theorem foldlM {f : β → α → Except Error β} (hf : ∀ b a, Fails E (f b a)) (as : List α) (b : β) :
    Fails E (as.foldlM f b) := by
  induction as generalizing b with
  | nil => exact .ok b
  | cons a as ih =>
    rw [List.foldlM_cons]
    exact (hf b a).bind ih

theorem mapM (hf : ∀ a, Fails E (f a)) (as : List α) : Fails E (as.mapM f) := by
  induction as with
  | nil => exact .ok []
  | cons a as ih =>
    rw [List.mapM_cons]
    exact (hf a).bind fun _ => ih.bind fun _ => .ok _

end Fails

/-! ## Refinement -/

/-- Whenever the first computation succeeds, so does the second, and the results are related. The
errors of the first satisfy `E`. -/
structure Refines (E : Error → Prop) (R : α → β → Prop) (x : Except Error α) (y : Except Error β) :
    Prop where
  succeeds : ∀ a, x = .ok a → ∃ b, y = .ok b ∧ R a b
  fails : Fails E x

/-- Refinement, whatever the errors are. -/
abbrev Simulates (R : α → β → Prop) (x : Except Error α) (y : Except Error β) : Prop :=
  Refines (fun _ => True) R x y

namespace Refines

variable {R : α → β → Prop} {S : γ → δ → Prop}

theorem ok (h : R a b) : Refines E R (.ok a) (.ok b) where
  succeeds := by
    rintro _ ⟨⟩
    exact ⟨b, rfl, h⟩
  fails := .ok a

theorem error {e : Error} (h : E e) (y : Except Error β) : Refines E R (.error e) y where
  succeeds := by rintro _ ⟨⟩
  fails := .error h

theorem refl (x : Except Error α) : Simulates Eq x x where
  succeeds a h := ⟨a, h, rfl⟩
  fails _ _ := trivial

/-- The errors of the first computation do not matter. -/
theorem simulates (h : Refines E R x y) : Simulates R x y :=
  ⟨h.succeeds, fun _ _ => trivial⟩

theorem bind (h : Refines E R x y) (hf : ∀ a b, R a b → Refines E S (f a) (g b)) :
    Refines E S (x >>= f) (y >>= g) where
  succeeds c hc := by
    obtain ⟨a, ha, hc⟩ := exists_of_bind_eq_ok hc
    obtain ⟨b, hb, hab⟩ := h.succeeds a ha
    obtain ⟨d, hd, hcd⟩ := (hf a b hab).succeeds c hc
    refine ⟨d, ?_, hcd⟩
    rw [hb]
    exact hd
  fails e he := by
    rcases error_of_bind he with he | ⟨a, ha, he⟩
    · exact h.fails e he
    · obtain ⟨b, -, hab⟩ := h.succeeds a ha
      exact (hf a b hab).fails e he

/-- A step that is one of two. -/
theorem branch [Decidable c] [Decidable c'] {x₁ x₂ : Except Error α} {y₁ y₂ : Except Error β}
    (h : Refines E R (if c then x₁ else x₂) (if c' then y₁ else y₂))
    (hf : ∀ a b, R a b → Refines E S (f a) (g b)) :
    Refines E S (if c then x₁ >>= f else x₂ >>= f) (if c' then y₁ >>= g else y₂ >>= g) := by
  have hall := h.bind hf
  by_cases hc : c <;> by_cases hc' : c' <;> simpa [hc, hc'] using hall

/-- A check on the way, which the second computation passes if the first does. -/
theorem guard [Decidable c] [Decidable c'] {x y : Except Error Unit} {f : Unit → Except Error γ}
    {g : Unit → Except Error δ}
    (h : Refines E Eq (if c then x else .ok ()) (if c' then y else .ok ()))
    (hf : Refines E S (f ()) (g ())) :
    Refines E S (if c then x >>= f else f ()) (if c' then y >>= g else g ()) :=
  h.branch fun _ _ _ => hf

/-- The results are the same. -/
theorem eq_ok {y : Except Error α} (h : Refines E Eq x y) (ha : x = .ok a) : y = .ok a := by
  obtain ⟨b, hb, rfl⟩ := h.succeeds a ha
  exact hb

end Refines

/-! ## Computations with a state -/

/-- From related states on, the first computation refines the second, and results and states are
related again. -/
def RefinesFrom (E : Error → Prop) (Q : σ → τ → Prop) (R : α → β → Prop)
    (x : StateT σ (Except Error) α) (y : StateT τ (Except Error) β) : Prop :=
  ∀ s t, Q s t → Refines E (fun a b => R a.1 b.1 ∧ Q a.2 b.2) (x.run s) (y.run t)

namespace RefinesFrom

variable {Q : σ → τ → Prop} {R : α → β → Prop} {S : γ → δ → Prop}

theorem pure (h : R a b) :
    RefinesFrom E Q R (Pure.pure a : StateT σ (Except Error) α) (Pure.pure b) :=
  fun _ _ hst => Refines.ok ⟨h, hst⟩

theorem bind {x : StateT σ (Except Error) α} {y : StateT τ (Except Error) β}
    {f : α → StateT σ (Except Error) γ} {g : β → StateT τ (Except Error) δ}
    (h : RefinesFrom E Q R x y) (hf : ∀ a b, R a b → RefinesFrom E Q S (f a) (g b)) :
    RefinesFrom E Q S (x >>= f) (y >>= g) := by
  intro s t hst
  rw [StateT.run_bind, StateT.run_bind]
  exact (h s t hst).bind fun a b hab => hf a.1 b.1 hab.1 a.2 b.2 hab.2

theorem get : RefinesFrom E Q Q (MonadState.get : StateT σ (Except Error) σ) MonadState.get :=
  fun _ _ hst => Refines.ok ⟨hst, hst⟩

theorem set (h : Q s t) :
    RefinesFrom E Q Eq (MonadStateOf.set s : StateT σ (Except Error) PUnit) (MonadStateOf.set t) :=
  fun _ _ _ => Refines.ok ⟨rfl, h⟩

theorem lift (h : Refines E R x y) :
    RefinesFrom E Q R (liftM x : StateT σ (Except Error) α) (liftM y) :=
  fun _ _ hst => h.bind fun _ _ hab => .ok ⟨hab, hst⟩

theorem run' {x : StateT σ (Except Error) α} {y : StateT τ (Except Error) β}
    (h : RefinesFrom E Q R x y) (hst : Q s t) : Refines E R (x.run' s) (y.run' t) :=
  (h s t hst).bind fun _ _ hab => .ok hab.1

/-- A check on the way, which the second computation passes if the first does. -/
theorem guard [Decidable c] [Decidable c'] {x y : Except Error Unit}
    {f : Unit → StateT σ (Except Error) γ} {g : Unit → StateT τ (Except Error) δ}
    (h : Refines E Eq (if c then x else .ok ()) (if c' then y else .ok ()))
    (hf : RefinesFrom E Q S (f ()) (g ())) :
    RefinesFrom E Q S (if c then (do let r ← liftM x; f r) else f ())
      (if c' then (do let r ← liftM y; g r) else g ()) := by
  have hall : RefinesFrom E Q S (do let r ← liftM (if c then x else .ok ()); f r)
      (do let r ← liftM (if c' then y else .ok ()); g r) := (lift h).bind fun _ _ _ => hf
  by_cases hc : c <;> by_cases hc' : c' <;>
  · simp only [hc, hc', if_true, if_false] at hall ⊢
    exact hall

end RefinesFrom

end Diglot
