import Dcfs.Library.Triple

namespace Effects

abbrev Routine (I : Interface) (τ ε α : Type) := ExceptT ε (StateT τ (Program I)) α

namespace Routine

variable {I : Interface} {τ ε α β σ : Type}

def ask (c : I.Call) : Routine I τ ε (I.Reply c) := fun m => .call c fun r => .done (.ok r, m)

def update (f : τ → α × τ) : Routine I τ ε α := fun m => .done (.ok (f m).1, (f m).2)

def fail (e : ε) : Routine I τ ε α := fun m => .done (.error e, m)

def attempt (x : Routine I τ ε α) : Routine I τ ε (Except ε α) := fun m =>
  (x m).bind fun out => .done (.ok out.1, out.2)

def Meets (R : Rules I σ) (x : Routine I τ ε α) (Q : Except ε α → τ → σ → Prop) (m : τ) (s : σ) : Prop :=
  Program.Meets R (x m) (fun out t => Q out.1 out.2 t) s

variable {R : Rules I σ} {Q Q' : Except ε α → τ → σ → Prop} {m : τ} {s : σ}

namespace Meets

theorem mono {x : Routine I τ ε α} (h : Meets R x Q m s) (hQ : ∀ out m' s', Q out m' s' → Q' out m' s') :
    Meets R x Q' m s :=
  Program.Meets.mono h fun _ _ hout => hQ _ _ _ hout

theorem ok {a : α} (h : Q (.ok a) m s) : Meets R (pure a) Q m s := h

theorem fail {e : ε} (h : Q (.error e) m s) : Meets R (Routine.fail e) Q m s := h

theorem bind {x : Routine I τ ε α} {f : α → Routine I τ ε β} {Q : Except ε β → τ → σ → Prop}
    (h : Meets R x (fun out m' s' => match out with
      | .ok a => Meets R (f a) Q m' s'
      | .error e => Q (.error e) m' s') m s) : Meets R (x >>= f) Q m s := by
  refine Program.Meets.bind (p := x m) (Program.Meets.mono h fun out t hout => ?_)
  obtain ⟨result, m'⟩ := out
  cases result with
  | ok a => exact hout
  | error e => exact hout

theorem ask {c : I.Call} {Q : Except ε (I.Reply c) → τ → σ → Prop} (hc : R.admits c s)
    (h : ∀ r t, R.outcome c s r t → Q (.ok r) m t) : Meets R (Routine.ask c) Q m s :=
  ⟨hc, h⟩

theorem update {f : τ → α × τ} (h : Q (.ok (f m).1) (f m).2 s) : Meets R (Routine.update f) Q m s := h

theorem attempt {x : Routine I τ ε α} {Q : Except ε (Except ε α) → τ → σ → Prop}
    (h : Meets R x (fun out m' s' => Q (.ok out) m' s') m s) : Meets R (Routine.attempt x) Q m s :=
  Program.Meets.bind (p := x m) h

end Meets

def Ends (R : Rules I σ) (x : Routine I τ ε α) (m : τ) (s : σ) (out : Except ε α) (m' : τ) (t : σ) : Prop :=
  Program.Ends R (x m) s (out, m') t

theorem Meets.ends {x : Routine I τ ε α} {out : Except ε α} {m' : τ} {t : σ} (h : Meets R x Q m s)
    (he : Ends R x m s out m' t) : Q out m' t :=
  Program.Meets.ends (Q := fun (out : Except ε α × τ) t => Q out.1 out.2 t) h he

theorem run_ends {h : (c : I.Call) → σ → I.Reply c × σ} (hh : ∀ c s, R.outcome c s (h c s).1 (h c s).2)
    (x : Routine I τ ε α) (m : τ) (s : σ) :
    Ends R x m s ((x m).run h s).1.1 ((x m).run h s).1.2 ((x m).run h s).2 :=
  Program.run_ends hh (x m) s

namespace Ends

variable {x : Routine I τ ε α} {m₁ m' : τ} {s₁ t : σ}

theorem ok (a : α) : Ends R (pure a : Routine I τ ε α) m s (.ok a) m s := .done

theorem update (f : τ → α × τ) : Ends R (Routine.update f : Routine I τ ε α) m s (.ok (f m).1) (f m).2 s := .done

theorem ask {c : I.Call} {r : I.Reply c} (h : R.outcome c s r t) :
    Ends R (Routine.ask c : Routine I τ ε (I.Reply c)) m s (.ok r) m t := .call h .done

theorem bind {f : α → Routine I τ ε β} {a : α} {out : Except ε β} (hx : Ends R x m s (.ok a) m₁ s₁)
    (hf : Ends R (f a) m₁ s₁ out m' t) : Ends R (x >>= f) m s out m' t :=
  Program.Ends.bind hx hf

end Ends

def Keeps (R : Rules I σ) (inv : τ → σ → Prop) (x : Routine I τ ε α) : Prop :=
  ∀ m s, inv m s → Meets R x (fun _ m' s' => inv m' s') m s

namespace Keeps

variable {inv : τ → σ → Prop}

theorem ok (a : α) : Keeps R inv (pure a : Routine I τ ε α) := fun _ _ h => h

theorem fail (e : ε) : Keeps R inv (Routine.fail e : Routine I τ ε α) := fun _ _ h => h

theorem bind {x : Routine I τ ε α} {f : α → Routine I τ ε β} (hx : Keeps R inv x) (hf : ∀ a, Keeps R inv (f a)) :
    Keeps R inv (x >>= f) := by
  intro m s h
  refine .bind ((hx m s h).mono fun out m' s' h' => ?_)
  cases out with
  | ok a => exact hf a m' s' h'
  | error e => exact h'

theorem ask {c : I.Call} (hc : ∀ m s, inv m s → R.admits c s ∧ ∀ r t, R.outcome c s r t → inv m t) :
    Keeps R inv (Routine.ask c : Routine I τ ε (I.Reply c)) :=
  fun m s h => .ask (hc m s h).1 (hc m s h).2

theorem update {f : τ → α × τ} (hf : ∀ m s, inv m s → inv (f m).2 s) :
    Keeps R inv (Routine.update f : Routine I τ ε α) := hf

end Keeps

def Issues (allowed : I.Call → Prop) (x : Routine I τ ε α) : Prop := ∀ m, (x m).Uses allowed

namespace Issues

variable {allowed : I.Call → Prop}

theorem ok (a : α) : Issues allowed (pure a : Routine I τ ε α) := fun _ => trivial

theorem fail (e : ε) : Issues allowed (Routine.fail e : Routine I τ ε α) := fun _ => trivial

theorem bind {x : Routine I τ ε α} {f : α → Routine I τ ε β} (hx : Issues allowed x)
    (hf : ∀ a, Issues allowed (f a)) : Issues allowed (x >>= f) := by
  intro m
  refine Program.Uses.bind (p := x m) (hx m) fun out => ?_
  obtain ⟨result, m'⟩ := out
  cases result with
  | ok a => exact hf a m'
  | error e => trivial

theorem ask {c : I.Call} (hc : allowed c) : Issues allowed (Routine.ask c : Routine I τ ε (I.Reply c)) :=
  fun _ => ⟨hc, fun _ => trivial⟩

theorem update (f : τ → α × τ) : Issues allowed (Routine.update f : Routine I τ ε α) := fun _ => trivial

theorem attempt {x : Routine I τ ε α} (hx : Issues allowed x) : Issues allowed (Routine.attempt x) :=
  fun m => Program.Uses.bind (p := x m) (hx m) fun _ => trivial

theorem ite {c : Prop} [Decidable c] {x y : Routine I τ ε α} (hx : c → Issues allowed x)
    (hy : ¬c → Issues allowed y) : Issues allowed (if c then x else y) := by
  by_cases hc : c
  · rw [if_pos hc]
    exact hx hc
  · rw [if_neg hc]
    exact hy hc

theorem keeps {x : Routine I τ ε α} (hx : Issues allowed x) {inv : σ → Prop}
    (h : ∀ c, allowed c → ∀ s, inv s → R.admits c s ∧ ∀ r t, R.outcome c s r t → inv t) :
    Keeps R (fun _ s => inv s) x :=
  fun m _ hs => Program.Uses.meets (hx m) h hs

end Issues

end Routine

end Effects
