import Dcfs.State.Steps

namespace Dcfs

open Machine Tables World

variable {cfg : Config} {w : World}

def touched (w : World) (size : ℤ) (version : FileVersionRecord) : FileVersionRecord :=
  { version with size := size, createdAt := w.now }

theorem lookup_touch {v : Uuid} {version : FileVersionRecord} (size : ℤ)
    (hv : w.versions.lookup v = some version) (hs : version.state = .staging) (id : Uuid) :
    (w.touchStagingVersion v size).2.versions.lookup id =
      if id = v then some (touched w size version) else w.versions.lookup id := by
  simp only [touchStagingVersion, lookup_modify]
  split_ifs with h
  · subst h
    simp [hv, hs, touched]
  · rfl

theorem Consistent.touch (hw : Consistent cfg w) {v : Uuid} {version : FileVersionRecord} {size : ℤ}
    (hsize : InI64 size) (hv : w.versions.lookup v = some version) (hs : version.state = .staging) :
    Consistent cfg (w.touchStagingVersion v size).2 := by
  have hlook := lookup_touch size hv hs
  have hok := hw.version hv
  refine hw.of_versions rfl rfl rfl ?_ ?_ ?_ hw.node ?_
  · intro id version' h
    rw [hlook] at h
    split_ifs at h with hid
    · cases h
      subst hid
      exact ⟨⟨hok.id_eq, hok.id_lt, hsize, hok.part_size, hok.staged, Int.lt_succ _, fun t ht =>
        (hok.committed_past t ht).trans (Int.lt_succ _)⟩, version, hv, rfl⟩
    · exact ⟨(hw.version h).later le_rfl (Int.le.intro 1 rfl), version', h, rfl⟩
  · intro id version' h
    rw [hlook]
    split_ifs
    · exact ⟨_, rfl⟩
    · exact ⟨_, h⟩
  · intro id version₁ id' version₂ h h' hs₁ hs₂ ht
    rw [hlook] at h h'
    split_ifs at h h' with h1 h2 h2
    · exact h1.trans h2.symm
    · cases h
      exact absurd ht (hw.version h').created_past.ne'
    · cases h'
      exact absurd ht (hw.version h).created_past.ne
    · exact hw.distinct h h' hs₁ hs₂ ht
  · intro id node current hnode hcur
    obtain ⟨version', hv', hrest⟩ := hw.current hnode hcur
    refine ⟨version', ?_, hrest⟩
    rw [hlook, if_neg]
    · exact hv'
    · rintro rfl
      cases hv.symm.trans hv'
      simp [hs] at hrest

def supersededBy (version : FileVersionRecord) : FileVersionRecord :=
  if version.state = .committed then { version with state := .superseded } else version

theorem lookup_switch (b : Backend) (n v : Uuid) (node : NodeRecord) (version : FileVersionRecord)
    (id : Uuid) :
    (w.switchTo b n v node version).versions.lookup id =
      if id = v then some version
      else if node.currentVersionId = some id then (w.versions.lookup id).map supersededBy
      else w.versions.lookup id := by
  simp only [switchTo, lookup_insert]
  split_ifs with h1 h2
  · rfl
  · rw [h2, supersede, lookup_modify, if_pos rfl]
    rfl
  · cases hc : node.currentVersionId with
    | none => rfl
    | some old =>
      have hne : id ≠ old := fun e => h2 (e ▸ hc)
      rw [supersede, lookup_modify, if_neg hne]

theorem Consistent.switch (hw : Consistent cfg w) {n v : Uuid} {node : NodeRecord}
    {version : FileVersionRecord} {size : ℤ} (hsize : InI64 size) (hash : String)
    (hnode : w.nodes.lookup n = some node) (hv : w.versions.lookup v = some version)
    (hvn : version.nodeId = n) :
    Consistent cfg (w.switchTo cfg.backend n v node (w.committed version size hash)) := by
  have hlook := lookup_switch (w := w) cfg.backend n v node (w.committed version size hash)
  have hok := hw.version hv
  have hcases : ∀ {id version'}, (w.switchTo cfg.backend n v node
      (w.committed version size hash)).versions.lookup id = some version' →
      (id = v ∧ version' = w.committed version size hash) ∨
      (id ≠ v ∧ ∃ old, w.versions.lookup id = some old ∧ (version' = old ∨
        (old.state = .committed ∧ version' = { old with state := .superseded }))) := by
    intro id version' h
    rw [hlook] at h
    split_ifs at h with h1 h2
    · exact .inl ⟨h1, (Option.some.inj h).symm⟩
    · obtain ⟨old, hold, rfl⟩ := Option.map_eq_some_iff.mp h
      refine .inr ⟨h1, old, hold, ?_⟩
      unfold supersededBy
      split_ifs with hs
      · exact .inr ⟨hs, rfl⟩
      · exact .inl rfl
    · exact .inr ⟨h1, version', h, .inl rfl⟩
  have hstaging : ∀ {id version'}, (w.switchTo cfg.backend n v node
      (w.committed version size hash)).versions.lookup id = some version' →
      version'.state = .staging → w.versions.lookup id = some version' := by
    intro id version' h hs
    rcases hcases h with ⟨rfl, rfl⟩ | ⟨-, old, hold, rfl | ⟨-, rfl⟩⟩
    · cases hs
    · exact hold
    · cases hs
  refine hw.of_versions rfl rfl rfl ?_ ?_ ?_ ?_ ?_
  · intro id version' h
    rcases hcases h with ⟨rfl, rfl⟩ | ⟨-, old, hold, rfl | ⟨hs, rfl⟩⟩
    · refine ⟨⟨hok.id_eq, hok.id_lt, hsize, hok.part_size, by simp [committed],
        hok.created_past.trans (Int.lt_succ _), ?_⟩, version, hv, rfl⟩
      rintro t ⟨⟩
      exact Int.lt_succ _
    · exact ⟨(hw.version hold).later le_rfl (Int.le.intro 1 rfl), version', hold, rfl⟩
    · have hold' : VersionOk cfg w.tick id old := (hw.version hold).later le_rfl (Int.le.intro 1 rfl)
      refine ⟨⟨hold'.id_eq, hold'.id_lt, hold'.size_range, hold'.part_size, ?_, hold'.created_past,
        hold'.committed_past⟩, old, hold, rfl⟩
      have := hold'.staged
      simp only [hs, reduceCtorEq, false_iff] at this ⊢
      exact this
  · intro id version' h
    rw [hlook]
    split_ifs
    · exact ⟨_, rfl⟩
    · rw [h]
      exact ⟨_, rfl⟩
    · exact ⟨_, h⟩
  · intro id version₁ id' version₂ h h' hs₁ hs₂ ht
    exact hw.distinct (hstaging h hs₁) (hstaging h' hs₂) hs₁ hs₂ ht
  · intro id node' h
    simp only [switchTo, lookup_insert] at h
    split_ifs at h with hid
    · cases h
      subst hid
      exact ⟨(hw.node hnode).id_eq, hsize⟩
    · exact hw.node h
  · intro id node' current h hc
    simp only [switchTo, lookup_insert] at h
    split_ifs at h with hid
    · cases h
      cases hc
      exact ⟨w.committed version size hash, by rw [hlook, if_pos rfl], hvn.trans hid.symm, rfl⟩
    · obtain ⟨version', hv', hn', hs'⟩ := hw.current h hc
      have hne : current ≠ v := by
        rintro rfl
        cases hv.symm.trans hv'
        exact hid (hn'.symm.trans hvn)
      have hne' : node.currentVersionId ≠ some current := by
        intro hcur
        obtain ⟨version'', hv'', hn'', -⟩ := hw.current hnode hcur
        cases hv'.symm.trans hv''
        exact hid (hn'.symm.trans hn'')
      exact ⟨version', by rw [hlook, if_neg hne, if_neg hne', hv'], hn', hs'⟩

end Dcfs
