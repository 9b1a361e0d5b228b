import Mathlib.Logic.Relation

/-!
Programs that talk to a stateful service through atomic calls. A program is a tree:
it is finished, or it issues one call and goes on with the reply. The same tree is run
to the end by one handler, or interleaved call by call with other programs.
-/

namespace Effects

structure Interface where
  Call : Type
  Reply : Call → Type

inductive Program (I : Interface) (α : Type) : Type
  | done (a : α)
  | call (c : I.Call) (next : I.Reply c → Program I α)

namespace Program

variable {I : Interface} {α β γ σ : Type}

def bind : Program I α → (α → Program I β) → Program I β
  | .done a, f => f a
  | .call c next, f => .call c (fun r => (next r).bind f)

instance : Monad (Program I) where
  pure := .done
  bind := bind

theorem bind_call (c : I.Call) (next : I.Reply c → Program I α) (f : α → Program I β) :
    (Program.call c next) >>= f = .call c (fun r => next r >>= f) := rfl

theorem bind_pure (p : Program I α) : p >>= pure = p := by
  induction p with
  | done a => rfl
  | call c next ih => exact congrArg (Program.call c) (funext ih)

theorem bind_assoc (p : Program I α) (f : α → Program I β) (g : β → Program I γ) :
    (p >>= f) >>= g = p >>= fun a => f a >>= g := by
  induction p with
  | done a => rfl
  | call c next ih => exact congrArg (Program.call c) (funext ih)

instance : LawfulMonad (Program I) :=
  LawfulMonad.mk' _ bind_pure (fun _ _ => rfl) bind_assoc

def ask (c : I.Call) : Program I (I.Reply c) := .call c .done

def run (h : (c : I.Call) → σ → I.Reply c × σ) : Program I α → σ → α × σ
  | .done a, s => (a, s)
  | .call c next, s => run h (next (h c s).1) (h c s).2

@[simp] theorem run_done (h : (c : I.Call) → σ → I.Reply c × σ) (a : α) (s : σ) :
    run h (.done a) s = (a, s) := rfl

@[simp] theorem run_call (h : (c : I.Call) → σ → I.Reply c × σ) (c : I.Call)
    (next : I.Reply c → Program I α) (s : σ) :
    run h (.call c next) s = run h (next (h c s).1) (h c s).2 := rfl

theorem run_bind (h : (c : I.Call) → σ → I.Reply c × σ) (p : Program I α)
    (f : α → Program I β) (s : σ) :
    run h (p >>= f) s = run h (f (run h p s).1) (run h p s).2 := by
  induction p generalizing s with
  | done a => rfl
  | call c next ih => simp only [bind_call, run_call, ih]

theorem run_inv {h : (c : I.Call) → σ → I.Reply c × σ} {P : σ → Prop} (hcall : ∀ c s, P s → P (h c s).2)
    (p : Program I α) {s : σ} (hs : P s) : P (run h p s).2 := by
  induction p generalizing s with
  | done a => exact hs
  | call c next ih => exact ih _ (hcall c s hs)

def Uses (allowed : I.Call → Prop) : Program I α → Prop
  | .done _ => True
  | .call c next => allowed c ∧ ∀ r, (next r).Uses allowed

theorem Uses.bind {allowed : I.Call → Prop} {p : Program I α} {f : α → Program I β}
    (hp : p.Uses allowed) (hf : ∀ a, (f a).Uses allowed) : (p >>= f).Uses allowed := by
  induction p with
  | done a => exact hf a
  | call c next ih => exact ⟨hp.1, fun r => ih r (hp.2 r)⟩

end Program

theorem Program.run_related {I : Interface} {σ τ α : Type} {h : (c : I.Call) → σ → I.Reply c × σ}
    {h' : (c : I.Call) → τ → I.Reply c × τ} {R : σ → τ → Prop}
    (hcall : ∀ c s t, R s t → (h c s).1 = (h' c t).1 ∧ R (h c s).2 (h' c t).2) (p : Program I α) {s : σ} {t : τ}
    (hR : R s t) : (p.run h s).1 = (p.run h' t).1 ∧ R (p.run h s).2 (p.run h' t).2 := by
  induction p generalizing s t with
  | done a => exact ⟨rfl, hR⟩
  | call c next ih =>
    obtain ⟨hreply, hafter⟩ := hcall c s t hR
    rw [run_call, run_call, hreply]
    exact ih _ hafter

end Effects
