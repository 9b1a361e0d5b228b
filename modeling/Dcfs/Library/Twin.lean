import Dcfs.Library.Routine

/-!
Two routines over the same service, compared run by run: whatever one of them comes to, the other
comes to the like of it, and their states stay related.
-/

namespace Effects

namespace Routine

variable {I : Interface} {τ ε α β γ δ σ : Type}

def Alike (fin : τ → σ → τ → σ → Prop) (post : α → β → τ → σ → τ → σ → Prop) (out : Except ε α) (out₀ : Except ε β)
    (m : τ) (s : σ) (m₀ : τ) (s₀ : σ) : Prop :=
  match out, out₀ with
  | .ok a, .ok b => post a b m s m₀ s₀
  | .error e, .error e₀ => e = e₀ ∧ fin m s m₀ s₀
  | _, _ => False

/-- From states related by `pre`, and for every end of `y`: `x` comes to an end like it. -/
def Twin (R : Rules I σ) (pre fin : τ → σ → τ → σ → Prop) (post : α → β → τ → σ → τ → σ → Prop)
    (x : Routine I τ ε α) (y : Routine I τ ε β) : Prop :=
  ∀ m s m₀ s₀ out₀ m₁ s₁, pre m s m₀ s₀ → Program.Ends R (y m₀) s₀ (out₀, m₁) s₁ →
    Meets R x (fun out m' t => Alike fin post out out₀ m' t m₁ s₁) m s

variable {R : Rules I σ} {pre pre' fin fin' : τ → σ → τ → σ → Prop}
  {post post' : α → β → τ → σ → τ → σ → Prop} {post₂ : γ → δ → τ → σ → τ → σ → Prop} {x : Routine I τ ε α}
  {y : Routine I τ ε β}

theorem Alike.mono {out : Except ε α} {out₀ : Except ε β} {m m₀ : τ} {s s₀ : σ}
    (h : Alike fin post out out₀ m s m₀ s₀) (hfin : ∀ m s m₀ s₀, fin m s m₀ s₀ → fin' m s m₀ s₀)
    (hpost : ∀ a b m s m₀ s₀, post a b m s m₀ s₀ → post' a b m s m₀ s₀) : Alike fin' post' out out₀ m s m₀ s₀ := by
  cases out with
  | ok a =>
    cases out₀ with
    | ok b => exact hpost _ _ _ _ _ _ h
    | error e => exact h
  | error e =>
    cases out₀ with
    | ok b => exact h
    | error e₀ => exact ⟨h.1, hfin _ _ _ _ h.2⟩

theorem ends_bind {g : β → Routine I τ ε δ} {m m' : τ} {s t : σ} {out : Except ε δ}
    (h : Program.Ends R ((y >>= g) m) s (out, m') t) : ∃ out₁ m₁ s₁, Program.Ends R (y m) s (out₁, m₁) s₁
      ∧ match out₁ with
        | .ok b => Program.Ends R (g b m₁) s₁ (out, m') t
        | .error e => out = .error e ∧ m' = m₁ ∧ t = s₁ := by
  obtain ⟨⟨out₁, m₁⟩, s₁, hy, hg⟩ := Program.Ends.of_bind (p := y m) h
  refine ⟨out₁, m₁, s₁, hy, ?_⟩
  cases out₁ with
  | ok b => exact hg
  | error e =>
    cases hg
    exact ⟨rfl, rfl, rfl⟩

namespace Twin

theorem mono (h : Twin R pre fin post x y) (hpre : ∀ m s m₀ s₀, pre' m s m₀ s₀ → pre m s m₀ s₀)
    (hfin : ∀ m s m₀ s₀, fin m s m₀ s₀ → fin' m s m₀ s₀)
    (hpost : ∀ a b m s m₀ s₀, post a b m s m₀ s₀ → post' a b m s m₀ s₀) : Twin R pre' fin' post' x y :=
  fun m s m₀ s₀ out₀ m₁ s₁ hp he =>
    (h m s m₀ s₀ out₀ m₁ s₁ (hpre _ _ _ _ hp) he).mono fun _ _ _ hout => hout.mono hfin hpost

theorem given {c : Prop} (hc : ∀ m s m₀ s₀, pre m s m₀ s₀ → c) (h : c → Twin R pre fin post x y) :
    Twin R pre fin post x y :=
  fun m s m₀ s₀ out₀ m₁ s₁ hp he => h (hc m s m₀ s₀ hp) m s m₀ s₀ out₀ m₁ s₁ hp he

theorem ok {a : α} {b : β} (h : ∀ m s m₀ s₀, pre m s m₀ s₀ → post a b m s m₀ s₀) :
    Twin R pre fin post (pure a : Routine I τ ε α) (pure b) := by
  intro m s m₀ s₀ out₀ m₁ s₁ hp he
  cases he
  exact .ok (h m s m₀ s₀ hp)

theorem fail {e : ε} (h : ∀ m s m₀ s₀, pre m s m₀ s₀ → fin m s m₀ s₀) :
    Twin R pre fin post (Routine.fail e) (Routine.fail e) := by
  intro m s m₀ s₀ out₀ m₁ s₁ hp he
  cases he
  exact .fail ⟨rfl, h m s m₀ s₀ hp⟩

theorem bind {f : α → Routine I τ ε γ} {g : β → Routine I τ ε δ} (hx : Twin R pre fin post x y)
    (hf : ∀ a b, Twin R (post a b) fin post₂ (f a) (g b)) : Twin R pre fin post₂ (x >>= f) (y >>= g) := by
  intro m s m₀ s₀ out₀ m₁ s₁ hp he
  obtain ⟨out', m', s', hy, hg⟩ := ends_bind he
  refine .bind ((hx m s m₀ s₀ out' m' s' hp hy).mono fun out n t hout => ?_)
  cases out with
  | ok a =>
    cases out' with
    | ok b => exact hf a b n t m' s' out₀ m₁ s₁ hout hg
    | error e => exact hout.elim
  | error e =>
    cases out' with
    | ok b => exact hout.elim
    | error e₀ =>
      obtain ⟨rfl, rfl, rfl⟩ := hg
      exact hout

theorem lead {z : Routine I τ ε γ} {f : γ → Routine I τ ε α} {q : τ → σ → τ → σ → Prop}
    (hz : ∀ m s m₀ s₀, pre m s m₀ s₀ → Meets R z (fun out m' t => (∃ c, out = .ok c) ∧ q m' t m₀ s₀) m s)
    (hf : ∀ c, Twin R q fin post (f c) y) : Twin R pre fin post (z >>= f) y := by
  intro m s m₀ s₀ out₀ m₁ s₁ hp he
  refine .bind ((hz m s m₀ s₀ hp).mono ?_)
  rintro _ m' t ⟨⟨c, rfl⟩, hmid⟩
  exact hf c m' t m₀ s₀ out₀ m₁ s₁ hmid he

theorem ask {c c₀ : I.Call} {post : I.Reply c → I.Reply c₀ → τ → σ → τ → σ → Prop}
    (h : ∀ m s m₀ s₀ r₀ s₁, pre m s m₀ s₀ → R.outcome c₀ s₀ r₀ s₁ →
      R.admits c s ∧ ∀ r t, R.outcome c s r t → post r r₀ m t m₀ s₁) :
    Twin R pre fin post (Routine.ask c : Routine I τ ε (I.Reply c)) (Routine.ask c₀) := by
  intro m s m₀ s₀ out₀ m₁ s₁ hp he
  cases he with
  | call hr hdone =>
    cases hdone
    obtain ⟨hadmits, hout⟩ := h m s m₀ s₀ _ s₁ hp hr
    exact .ask hadmits hout

theorem update {f : τ → α × τ} {g : τ → β × τ}
    (h : ∀ m s m₀ s₀, pre m s m₀ s₀ → post (f m).1 (g m₀).1 (f m).2 s (g m₀).2 s₀) :
    Twin R pre fin post (Routine.update f : Routine I τ ε α) (Routine.update g) := by
  intro m s m₀ s₀ out₀ m₁ s₁ hp he
  cases he
  exact .update (h m s m₀ s₀ hp)

theorem steps {f : τ → Except ε α × τ} {g : τ → Except ε β × τ} (hx : ∀ m, x m = .done (f m))
    (hy : ∀ m, y m = .done (g m))
    (h : ∀ m s m₀ s₀, pre m s m₀ s₀ → Alike fin post (f m).1 (g m₀).1 (f m).2 s (g m₀).2 s₀) :
    Twin R pre fin post x y := by
  intro m s m₀ s₀ out₀ m₁ s₁ hp he
  have hend := h m s m₀ s₀ hp
  rw [hy] at he
  rw [Meets, hx]
  generalize g m₀ = ended at he hend
  cases he
  exact hend

theorem attempt (h : Twin R pre fin post x y) :
    Twin R pre fin' (Alike fin post) (Routine.attempt x) (Routine.attempt y) := by
  intro m s m₀ s₀ out₀ m₁ s₁ hp he
  obtain ⟨⟨out', m'⟩, s', hy, hdone⟩ := Program.Ends.of_bind (p := y m₀) he
  cases hdone
  exact .attempt (h m s m₀ s₀ _ _ _ hp hy)

end Twin

end Routine

end Effects
