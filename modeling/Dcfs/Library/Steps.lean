import Mathlib.Logic.Relation
import Mathlib.Tactic.SplitIfs

namespace Steps

variable {σ α : Type}

def Reaches (step : σ → α → Option σ) (allowed : σ → α → Prop) : σ → σ → Prop :=
  Relation.ReflTransGen fun s s' => ∃ act, allowed s act ∧ step s act = some s'

variable {step : σ → α → Option σ} {allowed : σ → α → Prop} {s t : σ}

theorem Reaches.keeps {P : σ → Prop} (h : Reaches step allowed s t) (hs : P s)
    (hstep : ∀ s s' act, P s → allowed s act → step s act = some s' → P s') : P t := by
  induction h with
  | refl => exact hs
  | tail _ hlast ih =>
    obtain ⟨act, hallowed, hact⟩ := hlast
    exact hstep _ _ act ih hallowed hact

def play (step : σ → α → Option σ) (allowed : σ → α → Prop) [∀ s, DecidablePred (allowed s)] (acts : List α) (s : σ) :
    Option σ :=
  acts.foldlM (fun s act => if allowed s act then step s act else none) s

theorem reaches_of_play [∀ s, DecidablePred (allowed s)] (acts : List α) (h : play step allowed acts s = some t) :
    Reaches step allowed s t := by
  induction acts generalizing s with
  | nil =>
    cases h
    exact .refl
  | cons act rest ih =>
    obtain ⟨mid, hmid, hrest⟩ := Option.bind_eq_some_iff.mp h
    dsimp only at hmid
    split_ifs at hmid with hallowed
    exact .head ⟨act, hallowed, hmid⟩ (ih hrest)

end Steps
