/-! Computations that states do not show in, and computations that are alike on related states. -/

namespace Playground

/-- From all states with a property a computation has the same result, and it keeps the property. -/
structure Steady {σ α : Type} (P : σ → Prop) (f : σ → α × σ) : Prop where
  keeps : ∀ s, P s → P (f s).2
  same : ∀ s s', P s → P s' → (f s).1 = (f s').1

namespace Steady

variable {σ α β : Type} {P : σ → Prop}

theorem pure (P : σ → Prop) (a : α) : Steady P fun s => (a, s) where
  keeps _ holds := holds
  same _ _ _ _ := rfl

theorem bind {f : σ → α × σ} {g : α → σ → β × σ} (first : Steady P f)
    (next : ∀ s, P s → Steady P (g (f s).1)) : Steady P fun s => g (f s).1 (f s).2 where
  keeps s holds := (next s holds).keeps (f s).2 (first.keeps s holds)
  same s s' holds holds' := by
    have steady := (next s' holds').same (f s).2 (f s').2 (first.keeps s holds)
      (first.keeps s' holds')
    rw [first.same s s' holds holds']
    exact steady

theorem go {f : σ → α × σ} {g : σ → β × σ} {k : α → σ → β × σ} (first : Steady P f)
    (goes : ∀ s, g s = k (f s).1 (f s).2) (next : ∀ s, P s → Steady P (k (f s).1)) :
    Steady P g := by
  rw [funext goes]
  exact first.bind next

theorem congr {f g : σ → α × σ} (same : ∀ s, P s → f s = g s) (steady : Steady P g) :
    Steady P f where
  keeps s holds := by
    rw [same s holds]
    exact steady.keeps s holds
  same s s' holds holds' := by
    rw [same s holds, same s' holds']
    exact steady.same s s' holds holds'

theorem map {f : σ → α × σ} (first : Steady P f) (g : α → β) :
    Steady P fun s => (g (f s).1, (f s).2) where
  keeps := first.keeps
  same s s' holds holds' := congrArg g (first.same s s' holds holds')

end Steady

/-- From related states two computations come to one result, and to related states. -/
def Alike {σ τ α : Type} (R : σ → τ → Prop) (f : σ → α × σ) (g : τ → α × τ) : Prop :=
  ∀ s t, R s t → ∃ a s' t', f s = (a, s') ∧ g t = (a, t') ∧ R s' t'

theorem Steady.alike {σ τ τ' α : Type} {P : σ → Prop} {f : σ → α × σ} (steady : Steady P f)
    {R : σ × τ → σ × τ' → Prop} (left : ∀ s t, R s t → P s.1) (right : ∀ s t, R s t → P t.1)
    (moves : ∀ s t s' t', R s t → P s' → P t' → R (s', s.2) (t', t.2)) :
    Alike R (fun s => ((f s.1).1, (f s.1).2, s.2)) fun t => ((f t.1).1, (f t.1).2, t.2) := by
  intro s t related
  have holds := left s t related
  have holds' := right s t related
  refine ⟨_, _, _, rfl, ?_, moves s t _ _ related (steady.keeps _ holds) (steady.keeps _ holds')⟩
  rw [steady.same s.1 t.1 holds holds']

end Playground
