import Dcfs.Metadata.Records
import Mathlib.Data.Set.Insert
import Mathlib.Logic.Function.Basic

/-!
What the version table is for: each live node has at most one current version, and the states of
its versions say which. Nodes are live or only rows, and a row outlives the versions of its node.
-/

namespace Dcfs

open Function

structure Book where
  current : Uuid → Option (Option Uuid)
  rows : Set Uuid
  versions : Uuid → Option (Uuid × VersionState)

namespace Book

def supersede (old : Option Uuid) (versions : Uuid → Option (Uuid × VersionState)) (v : Uuid) :
    Option (Uuid × VersionState) :=
  if old = some v then (versions v).map (fun (n, s) => (n, if s = .committed then .superseded else s))
  else versions v

inductive Step (b : Book) : Book → Prop
  | same : Step b b
  | made (n : Uuid) : n ∉ b.rows →
      Step b { b with current := update b.current n (some none), rows := insert n b.rows }
  | removed (n : Uuid) : Step b { b with current := update b.current n none }
  | erased (rows : Set Uuid) : rows ⊆ b.rows → (∀ n c, b.current n = some c → n ∈ rows) →
      (∀ v n s, b.versions v = some (n, s) → n ∈ rows) → Step b { b with rows := rows }
  | staged (v n : Uuid) : (b.current n).isSome → b.versions v = none →
      Step b { b with versions := update b.versions v (some (n, .staging)) }
  | committed (v n : Uuid) (old : Option Uuid) : b.current n = some old → b.versions v = some (n, .staging) →
      Step b { b with
        current := update b.current n (some (some v))
        versions := update (supersede old b.versions) v (some (n, .committed)) }
  | purged (doomed : Uuid → Bool) : (∀ n v, b.current n = some (some v) → doomed v = false) →
      Step b { b with versions := fun v => if doomed v then none else b.versions v }

/-- The current version of a live node is its one committed version. -/
structure Ok (b : Book) : Prop where
  live : ∀ {n c}, b.current n = some c → n ∈ b.rows
  owner : ∀ {v n s}, b.versions v = some (n, s) → n ∈ b.rows
  current : ∀ {n v}, b.current n = some (some v) → b.versions v = some (n, .committed)
  only : ∀ {n c v}, b.current n = some c → b.versions v = some (n, .committed) → c = some v

variable {b b' : Book}

theorem supersede_eq_some {old : Option Uuid} {versions : Uuid → Option (Uuid × VersionState)} {v n : Uuid}
    {s : VersionState} (h : supersede old versions v = some (n, s)) :
    ∃ before, versions v = some (n, before)
      ∧ ((s = before ∧ (old = some v → before ≠ .committed))
        ∨ (old = some v ∧ before = .committed ∧ s = .superseded)) := by
  unfold supersede at h
  split_ifs at h with hold
  · obtain ⟨⟨m, before⟩, hbefore, heq⟩ := Option.map_eq_some_iff.mp h
    simp only [Prod.mk.injEq] at heq
    obtain ⟨rfl, rfl⟩ := heq
    refine ⟨before, hbefore, ?_⟩
    split_ifs with hstate
    · exact .inr ⟨hold, hstate, rfl⟩
    · exact .inl ⟨rfl, fun _ => hstate⟩
  · exact ⟨s, h, .inl ⟨rfl, fun heq => absurd heq hold⟩⟩

theorem supersede_of_ne {old : Option Uuid} {versions : Uuid → Option (Uuid × VersionState)} {v : Uuid}
    (h : old ≠ some v) : supersede old versions v = versions v := if_neg h

theorem Step.ok (h : Step b b') (hb : Ok b) : Ok b' := by
  cases h with
  | same => exact hb
  | made n hn =>
    refine ⟨fun {m c} hm => ?_, fun hv => .inr (hb.owner hv), fun {m v} hm => ?_, fun {m c v} hm hv => ?_⟩
    · dsimp only at hm
      rw [update_apply] at hm
      split_ifs at hm with heq
      · exact .inl heq
      · exact .inr (hb.live hm)
    · dsimp only at hm
      rw [update_apply] at hm
      split_ifs at hm with heq
      · cases hm
      · exact hb.current hm
    · dsimp only at hm hv
      rw [update_apply] at hm
      split_ifs at hm with heq
      · exact absurd (hb.owner hv) (heq ▸ hn)
      · exact hb.only hm hv
  | removed n =>
    have hold : ∀ {m c}, update b.current n none m = some c → b.current m = some c := by
      intro m c hm
      rw [update_apply] at hm
      split_ifs at hm
      exact hm
    exact ⟨fun hm => hb.live (hold hm), hb.owner, fun hm => hb.current (hold hm), fun hm => hb.only (hold hm)⟩
  | erased rows _ hlive howner => exact ⟨hlive _ _, howner _ _ _, hb.current, hb.only⟩
  | staged v n hlive hnew =>
    obtain ⟨c, hc⟩ := Option.isSome_iff_exists.mp hlive
    have hother : ∀ {u m s}, update b.versions v (some (n, .staging)) u = some (m, s) →
        (u = v ∧ m = n ∧ s = .staging) ∨ b.versions u = some (m, s) := by
      intro u m s hu
      rw [update_apply] at hu
      split_ifs at hu with heq
      · cases hu
        exact .inl ⟨heq, rfl, rfl⟩
      · exact .inr hu
    refine ⟨hb.live, fun hu => ?_, fun {m u} hm => ?_, fun hm hu => ?_⟩
    · rcases hother hu with ⟨-, rfl, -⟩ | hu
      · exact hb.live hc
      · exact hb.owner hu
    · have hu := hb.current hm
      have hne : u ≠ v := by
        rintro rfl
        cases hnew.symm.trans hu
      exact (update_of_ne hne _ _).trans hu
    · rcases hother hu with ⟨-, -, hs⟩ | hu
      · cases hs
      · exact hb.only hm hu
  | committed v n old hold hv =>
    have hnode : ∀ {m c}, update b.current n (some (some v)) m = some c →
        (m = n ∧ c = some v) ∨ (m ≠ n ∧ b.current m = some c) := by
      intro m c hm
      rw [update_apply] at hm
      split_ifs at hm with heq
      · exact .inl ⟨heq, (Option.some.inj hm).symm⟩
      · exact .inr ⟨heq, hm⟩
    have hversion : ∀ {u m s}, update (supersede old b.versions) v (some (n, .committed)) u = some (m, s) →
        (u = v ∧ m = n) ∨ supersede old b.versions u = some (m, s) := by
      intro u m s hu
      rw [update_apply] at hu
      split_ifs at hu with heq
      · cases hu
        exact .inl ⟨heq, rfl⟩
      · exact .inr hu
    refine ⟨fun hm => ?_, fun hu => ?_, fun {m u} hm => ?_, fun {m c u} hm hu => ?_⟩
    · rcases hnode hm with ⟨rfl, -⟩ | ⟨-, hm⟩
      · exact hb.live hold
      · exact hb.live hm
    · rcases hversion hu with ⟨-, rfl⟩ | hu
      · exact hb.live hold
      · obtain ⟨before, hbefore, -⟩ := supersede_eq_some hu
        exact hb.owner hbefore
    · dsimp only
      rcases hnode hm with ⟨rfl, hc⟩ | ⟨hne, hm⟩
      · cases hc
        exact update_self ..
      · have hu := hb.current hm
        have huv : u ≠ v := by
          rintro rfl
          cases hv.symm.trans hu
        have hou : old ≠ some u := by
          rintro rfl
          cases hu.symm.trans (hb.current hold)
          exact hne rfl
        rw [update_of_ne huv, supersede_of_ne hou, hu]
    · rcases hversion hu with ⟨rfl, rfl⟩ | hu
      · rcases hnode hm with ⟨-, hc⟩ | ⟨hne, -⟩
        · exact hc
        · exact absurd rfl hne
      · obtain ⟨before, hbefore, ⟨rfl, hcommitted⟩ | ⟨-, -, hs⟩⟩ := supersede_eq_some hu
        · rcases hnode hm with ⟨rfl, -⟩ | ⟨-, hm⟩
          · exact absurd rfl (hcommitted (hb.only hold hbefore))
          · exact hb.only hm hbefore
        · cases hs
  | purged doomed hdoomed =>
    have hkept : ∀ {u x}, (if doomed u then none else b.versions u) = some x → b.versions u = some x := by
      intro u x hu
      split_ifs at hu
      exact hu
    refine ⟨hb.live, fun hu => hb.owner (hkept hu), fun {m u} hm => ?_, fun hm hu => hb.only hm (hkept hu)⟩
    exact (if_neg (Bool.eq_false_iff.mp (hdoomed m u hm))).trans (hb.current hm)

theorem Step.transition (h : Step b b') {v n n' : Uuid} {s s' : VersionState} (hv : b.versions v = some (n, s))
    (hv' : b'.versions v = some (n', s')) : n' = n ∧ (s' = s ∨ s.canTransitionTo s' = true) := by
  have hsame : b.versions v = some (n', s') → n' = n ∧ (s' = s ∨ s.canTransitionTo s' = true) := by
    intro h
    cases hv.symm.trans h
    exact ⟨rfl, .inl rfl⟩
  cases h with
  | same => exact hsame hv'
  | made m hm => exact hsame hv'
  | removed m => exact hsame hv'
  | erased rows _ _ _ => exact hsame hv'
  | staged u m _ hnew =>
    dsimp only at hv'
    rw [update_apply] at hv'
    split_ifs at hv' with heq
    · rw [heq, hnew] at hv
      cases hv
    · exact hsame hv'
  | committed u m old _ hu =>
    dsimp only at hv'
    rw [update_apply] at hv'
    split_ifs at hv' with heq
    · cases hv'
      cases hu.symm.trans (heq ▸ hv)
      exact ⟨rfl, .inr rfl⟩
    · obtain ⟨before, hbefore, hstate⟩ := supersede_eq_some hv'
      cases hv.symm.trans hbefore
      rcases hstate with ⟨rfl, -⟩ | ⟨-, rfl, rfl⟩
      · exact ⟨rfl, .inl rfl⟩
      · exact ⟨rfl, .inr rfl⟩
  | purged doomed _ =>
    dsimp only at hv'
    split_ifs at hv'
    exact hsame hv'

end Book

end Dcfs
