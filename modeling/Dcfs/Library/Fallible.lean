import Dcfs.Library.Triple
import Mathlib.Tactic.SplitIfs

namespace Effects

variable {I : Interface} {ε α β σ : Type} {R : Rules I σ} {s : σ}

def Attempts (R : Rules I σ) (p : ExceptT ε (Program I) α) (Q : α → σ → Prop) (s : σ) : Prop :=
  p.run.Meets R (fun result t => ∀ a, result = .ok a → Q a t) s

namespace Attempts

variable {Q Q' : α → σ → Prop} {Q₂ : β → σ → Prop}

theorem ok {a : α} (h : Q a s) : Attempts R (pure a : ExceptT ε (Program I) α) Q s := by
  rintro b ⟨⟩
  exact h

theorem error {e : ε} : Attempts R (throw e : ExceptT ε (Program I) α) Q s := nofun

theorem mono {p : ExceptT ε (Program I) α} (h : Attempts R p Q s) (hQ : ∀ a t, Q a t → Q' a t) :
    Attempts R p Q' s :=
  Program.Meets.mono h fun _ _ hresult a ha => hQ _ _ (hresult a ha)

theorem bind {x : ExceptT ε (Program I) α} {f : α → ExceptT ε (Program I) β}
    (h : Attempts R x (fun a t => Attempts R (f a) Q₂ t) s) : Attempts R (x >>= f) Q₂ s := by
  rw [Attempts, ExceptT.run_bind]
  refine Program.Meets.bind (Program.Meets.mono h fun result t hresult => ?_)
  cases result with
  | ok a => exact hresult a rfl
  | error e => exact nofun

theorem check {c : Prop} [Decidable c] {e : ε} {k : β → ExceptT ε (Program I) α}
    {rest : ExceptT ε (Program I) α} (h : ¬c → Attempts R rest Q s) :
    Attempts R (if c then throw e >>= k else rest) Q s := by
  split_ifs with hc
  · exact bind error
  · exact h hc

theorem lift {c : I.Call} {Q : I.Reply c → σ → Prop} (hc : R.admits c s)
    (h : ∀ r t, R.outcome c s r t → Q r t) :
    Attempts R (ExceptT.lift (Program.ask c) : ExceptT ε (Program I) (I.Reply c)) Q s := by
  refine ⟨hc, ?_⟩
  rintro r t hr a ⟨⟩
  exact h r t hr

end Attempts

def Succeeds (R : Rules I σ) (p : ExceptT ε (Program I) α) (Q : α → σ → Prop) (s : σ) : Prop :=
  p.run.Meets R (fun result t => ∃ a, result = .ok a ∧ Q a t) s

namespace Succeeds

variable {Q : α → σ → Prop} {Q₂ : β → σ → Prop}

theorem ok {a : α} (h : Q a s) : Succeeds R (pure a : ExceptT ε (Program I) α) Q s := ⟨a, rfl, h⟩

theorem bind {x : ExceptT ε (Program I) α} {f : α → ExceptT ε (Program I) β}
    (h : Succeeds R x (fun a t => Succeeds R (f a) Q₂ t) s) : Succeeds R (x >>= f) Q₂ s := by
  rw [Succeeds, ExceptT.run_bind]
  refine Program.Meets.bind (Program.Meets.mono h fun result t hresult => ?_)
  obtain ⟨a, rfl, hf⟩ := hresult
  exact hf

theorem lift {p : Program I α} (h : p.Meets R Q s) : Succeeds R (ExceptT.lift p : ExceptT ε (Program I) α) Q s :=
  Program.Meets.bind (h.mono fun a _ hQ => ⟨a, rfl, hQ⟩)

end Succeeds

theorem Program.Meets.exists_end (htotal : ∀ c s, ∃ r t, R.outcome c s r t) {p : Program I α} {Q : α → σ → Prop}
    (h : p.Meets R Q s) : ∃ a t, Program.Ends R p s a t ∧ Q a t := by
  induction p generalizing s with
  | done a => exact ⟨a, s, .done, h⟩
  | call c next ih =>
    obtain ⟨r, u, hr⟩ := htotal c s
    obtain ⟨a, t, hend, hQ⟩ := ih r (h.2 r u hr)
    exact ⟨a, t, .call hr hend, hQ⟩

theorem Succeeds.exists_end (htotal : ∀ c s, ∃ r t, R.outcome c s r t) {p : ExceptT ε (Program I) α}
    {Q : α → σ → Prop} (h : Succeeds R p Q s) : ∃ a t, Program.Ends R p.run s (.ok a) t ∧ Q a t := by
  obtain ⟨result, t, hend, a, rfl, hQ⟩ := Program.Meets.exists_end htotal h
  exact ⟨a, t, hend, hQ⟩

theorem Program.Ends.andThen {x : ExceptT ε (Program I) α} {f : α → ExceptT ε (Program I) β} {a : α}
    {b : Except ε β} {u t : σ} (hx : Program.Ends R x.run s (.ok a) u) (hf : Program.Ends R (f a).run u b t) :
    Program.Ends R (x >>= f).run s b t := by
  rw [ExceptT.run_bind]
  exact hx.bind hf

theorem Program.Ends.lift {p : Program I α} {a : α} {t : σ} (h : Program.Ends R p s a t) :
    Program.Ends R (ExceptT.lift p : ExceptT ε (Program I) α).run s (.ok a) t :=
  h.bind .done

end Effects
