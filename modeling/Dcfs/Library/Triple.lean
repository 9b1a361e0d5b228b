import Dcfs.Library.Program

/-!
Pre- and postconditions of a program over a service whose calls may have several outcomes.
`admits` says which calls the program may issue in a state: what it takes on itself.
-/

namespace Effects

structure Rules (I : Interface) (σ : Type) where
  admits : I.Call → σ → Prop
  outcome : (c : I.Call) → σ → I.Reply c → σ → Prop

def Rules.guarded {I : Interface} {σ : Type} (R : Rules I σ) (inv : σ → Prop) : Rules I σ where
  admits c s := R.admits c s ∧ inv s
  outcome := R.outcome

namespace Program

variable {I : Interface} {α β σ : Type} {R : Rules I σ}

/-- Every call is admitted when it is issued, and `Q` holds of the result when the program ends. -/
def Meets (R : Rules I σ) : Program I α → (α → σ → Prop) → σ → Prop
  | .done a, Q, s => Q a s
  | .call c next, Q, s => R.admits c s ∧ ∀ r t, R.outcome c s r t → Meets R (next r) Q t

theorem Meets.mono {p : Program I α} {Q Q' : α → σ → Prop} {s : σ} (h : p.Meets R Q s)
    (hQ : ∀ a t, Q a t → Q' a t) : p.Meets R Q' s := by
  induction p generalizing s with
  | done a => exact hQ a s h
  | call c next ih => exact ⟨h.1, fun r t ho => ih r (h.2 r t ho)⟩

theorem Meets.bind {p : Program I α} {f : α → Program I β} {Q : β → σ → Prop} {s : σ}
    (h : p.Meets R (fun a t => (f a).Meets R Q t) s) : (p >>= f).Meets R Q s := by
  induction p generalizing s with
  | done a => exact h
  | call c next ih => exact ⟨h.1, fun r t ho => ih r (h.2 r t ho)⟩

theorem Meets.keeps {inv : σ → Prop} {p : Program I α} {Q : α → σ → Prop} {s : σ} (h : p.Meets R Q s)
    (hinv : ∀ c s r t, R.admits c s → R.outcome c s r t → inv s → inv t) (hs : inv s) :
    p.Meets R (fun _ t => inv t) s := by
  induction p generalizing s with
  | done a => exact hs
  | call c next ih => exact ⟨h.1, fun r t ho => ih r (h.2 r t ho) (hinv c s r t h.1 ho hs)⟩

theorem Uses.meets {allowed : I.Call → Prop} {p : Program I α} (hp : p.Uses allowed) {inv : σ → Prop}
    (h : ∀ c, allowed c → ∀ s, inv s → R.admits c s ∧ ∀ r t, R.outcome c s r t → inv t) {s : σ} (hs : inv s) :
    p.Meets R (fun _ t => inv t) s := by
  induction p generalizing s with
  | done a => exact hs
  | call c next ih =>
    obtain ⟨hadmits, hkeeps⟩ := h c hp.1 s hs
    exact ⟨hadmits, fun r t hr => ih r (hp.2 r) (hkeeps r t hr)⟩

inductive Ends (R : Rules I σ) : Program I α → σ → α → σ → Prop
  | done {a : α} {s : σ} : Ends R (.done a) s a s
  | call {c : I.Call} {next : I.Reply c → Program I α} {s s' t : σ} {r : I.Reply c} {a : α} :
      R.outcome c s r s' → Ends R (next r) s' a t → Ends R (.call c next) s a t

theorem Meets.ends {p : Program I α} {Q : α → σ → Prop} {s t : σ} {a : α} (h : p.Meets R Q s)
    (he : Ends R p s a t) : Q a t := by
  induction he with
  | done => exact h
  | call hr _ ih => exact ih (h.2 _ _ hr)

theorem Ends.bind {p : Program I α} {f : α → Program I β} {s u t : σ} {a : α} {b : β} (hp : Ends R p s a u)
    (hf : Ends R (f a) u b t) : Ends R (p >>= f) s b t := by
  induction hp with
  | done => exact hf
  | call hr _ ih => exact .call hr (ih hf)

theorem Ends.of_bind {p : Program I α} {f : α → Program I β} {s t : σ} {b : β} (h : Ends R (p >>= f) s b t) :
    ∃ a u, Ends R p s a u ∧ Ends R (f a) u b t := by
  induction p generalizing s with
  | done a => exact ⟨a, s, .done, h⟩
  | call c next ih =>
    cases h with
    | call hr hrest =>
      obtain ⟨a, u, hp, hf⟩ := ih _ hrest
      exact ⟨a, u, .call hr hp, hf⟩

/-- The program can be cut off in `t`. -/
inductive Stops (R : Rules I σ) : Program I α → σ → σ → Prop
  | here {p : Program I α} {s : σ} : Stops R p s s
  | call {c : I.Call} {next : I.Reply c → Program I α} {s s' t : σ} {r : I.Reply c} :
      R.outcome c s r s' → Stops R (next r) s' t → Stops R (.call c next) s t

theorem Ends.stops {p : Program I α} {s t : σ} {a : α} (h : Ends R p s a t) : Stops R p s t := by
  induction h with
  | done => exact .here
  | call hr _ ih => exact .call hr ih

theorem Meets.of_guarded {inv : σ → Prop} {p : Program I α} {Q : α → σ → Prop} {s : σ}
    (h : p.Meets (R.guarded inv) Q s) : p.Meets R Q s := by
  induction p generalizing s with
  | done a => exact h
  | call c next ih => exact ⟨h.1.1, fun r t hr => ih r (h.2 r t hr)⟩

theorem Meets.stops {inv : σ → Prop} {p : Program I α} {Q : α → σ → Prop} {s t : σ}
    (h : p.Meets (R.guarded inv) Q s) (hQ : ∀ a t, Q a t → inv t) (hs : Stops R p s t) : inv t := by
  induction hs with
  | @here p s =>
    cases p with
    | done a => exact hQ a s h
    | call c next => exact h.1.2
  | call hr _ ih => exact ih (h.2 _ _ hr)

theorem run_ends {h : (c : I.Call) → σ → I.Reply c × σ} (hh : ∀ c s, R.outcome c s (h c s).1 (h c s).2)
    (p : Program I α) (s : σ) : Ends R p s (run h p s).1 (run h p s).2 := by
  induction p generalizing s with
  | done a => exact .done
  | call c next ih => exact .call (hh c s) (ih _ _)

variable {J : Interface}

def expand (f : (c : I.Call) → Program J (I.Reply c)) : Program I α → Program J α
  | .done a => .done a
  | .call c next => f c >>= fun r => (next r).expand f

theorem Meets.expand {S : Rules J σ} {f : (c : I.Call) → Program J (I.Reply c)}
    (hf : ∀ c s, R.admits c s → (f c).Meets S (fun r t => R.outcome c s r t) s) {p : Program I α}
    {Q : α → σ → Prop} {s : σ} (h : p.Meets R Q s) : (p.expand f).Meets S Q s := by
  induction p generalizing s with
  | done a => exact h
  | call c next ih => exact Meets.bind ((hf c s h.1).mono fun r t hr => ih r (h.2 r t hr))

end Program

end Effects
