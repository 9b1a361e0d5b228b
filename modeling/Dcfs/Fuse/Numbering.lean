import Dcfs.Fuse.Upheld

namespace Dcfs.Fuse

open Effects Fs Tables Routine

def anyServer : Rules Client Unit where
  admits _ _ := True
  outcome _ _ _ _ := True

theorem Mount.Learns.matched {m m' : Mount} (h : m.Learns m') (hm : m.Matched) : m'.Matched := by
  cases h with
  | number id => exact (hm.inoFor id).1.matched
  | remember ino node => exact ⟨hm.pairs, hm.below⟩
  | reach ino stop => exact ⟨hm.pairs, hm.below⟩
  | truncated ino size => exact ⟨hm.pairs, hm.below⟩

theorem upheld_of_numbers {σ : Type} (setup : Setup) {R : Rules Client σ} (hR : ∀ c s, R.admits c s)
    {inv : Mount → Prop} (hsame : ∀ {m m' : Mount}, inv m → m.SameNumbers m' → inv m')
    (hnumber : ∀ {m : Mount} id, inv m → inv (m.inoFor id).2)
    (hunbind : ∀ {m : Mount} {ino id}, inv m → m.byIno.lookup ino = some id → inv (m.unbind ino id)) :
    Upheld setup R fun m _ => inv m where
  call c _ _ _ s h := ⟨hR c s, fun _ _ _ => h⟩
  supplies nodeId versionId := ⟨_, .of_aside (fun c _ _ s h => ⟨hR c s, fun _ _ _ => h⟩) nodeId versionId⟩
  learns {m m' s} hlearns h := by
    cases hlearns with
    | number id => exact hnumber id h
    | remember ino node => exact hsame h ⟨rfl, rfl, rfl⟩
    | reach ino stop => exact hsame h ⟨rfl, rfl, rfl⟩
    | truncated ino size => exact hsame h ⟨rfl, rfl, rfl⟩
  drop _ h := hsame h ⟨rfl, rfl, rfl⟩
  drain h := hsame h ⟨rfl, rfl, rfl⟩
  unbind h hid _ := hunbind h hid
  extend {m s ino run} data h _ := by
    have hset : inv (m.setPending ino (run.grown data)) := hsame h ⟨rfl, rfl, rfl⟩
    unfold Fuse.extend
    split
    · exact .bind (.ask (hR _ _) fun _ _ _ => .ok ⟨rfl, rfl, hset⟩)
    · exact .ok ⟨rfl, rfl, hset⟩
  start {m s ino nodeId} offset data h _ _ := by
    have hset : ∀ run, inv (m.setPending ino run) := fun run => hsame h ⟨rfl, rfl, rfl⟩
    refine .bind ?_
    unfold beginRecord
    split_ifs
    · exact .ask (hR _ _) fun _ _ _ => .ok ⟨_, rfl, rfl, hset _⟩
    · exact .ok (.ok ⟨_, rfl, rfl, hset _⟩)

theorem matched_upheld {σ : Type} (setup : Setup) {R : Rules Client σ} (hR : ∀ c s, R.admits c s) :
    Upheld setup R fun m _ => m.Matched := by
  apply upheld_of_numbers setup hR
  · exact fun h hsame => hsame.matched h
  · exact fun id h => (h.inoFor id).1.matched
  · exact fun h hid => h.unbind hid

theorem Lives.matched {σ : Type} {setup : Setup} {R : Rules Client σ} (hR : ∀ c s, R.admits c s)
    {drifts : σ → σ → Prop} {opens : σ → Prop} {m : Mount} {s : σ} (h : Lives setup R drifts opens m s) : m.Matched :=
  h.keeps (matched_upheld setup hR).act (fun rootId _ _ => Mount.fresh_matched rootId) fun _ _ _ hm _ => hm

end Dcfs.Fuse
