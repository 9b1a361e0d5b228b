import Dcfs.File.Open

namespace Dcfs

open Machine Tables World Request Exec Sparse

variable {cfg : Config} {faults : Faults} {w : World}

def settled (cfg : Config) (w : World) (n : Uuid) (node : NodeRecord) (working : FileVersionRecord) : World :=
  w.switchTo cfg.backend n working.id node (w.committed working working.size (totalHash cfg working))

theorem exec_commitWorkingVersion_none {n : Uuid} (h : newest (w.stagingOf n) = none) :
    exec cfg faults (commitWorkingVersion cfg n) w = (.ok false, w) := by
  rw [commitWorkingVersion, exec_query, answer_findOpen_none h]
  rfl

theorem exec_commitWorkingVersion (hw : Consistent cfg w) {n : Uuid} {node : NodeRecord}
    {working : FileVersionRecord} (hnode : w.nodes.lookup n = some node)
    (h : newest (w.stagingOf n) = some working) :
    exec cfg faults (commitWorkingVersion cfg n) w = (.ok true, settled cfg w n node working) := by
  obtain ⟨hv, hn, hs⟩ := newest_lookup hw h
  rw [commitWorkingVersion, exec_query, answer_findOpen h]
  dsimp only
  rw [exec_query, answer_getNode hnode, repo_ok, pure_bind, exec_ask]
  have hcommit : perform cfg faults w (.commitVersion
      { nodeId := n, versionId := working.id, expectedGeneration := node.generation,
        expectedCurrentVersion := node.currentVersionId } working.size (totalHash cfg working)) =
      (.ok (w.committed working working.size (totalHash cfg working)), settled cfg w n node working) := by
    simp only [perform, World.commitVersion, hnode, hv, hs, ne_eq, not_true_eq_false, or_self, if_false,
      and_false]
    rfl
  rw [hcommit]
  rfl

section settled

variable {n : Uuid} {node : NodeRecord} {working : FileVersionRecord}

theorem byteOf_settled (v : Uuid) : byteOf cfg (settled cfg w n node working) v = byteOf cfg w v := rfl

variable (cfg w n node working) in
theorem lookup_settled (m : Uuid) : (settled cfg w n node working).nodes.lookup m =
    if m = n then some (w.published cfg.backend node working.id working.size) else w.nodes.lookup m := by
  rw [settled, World.switchTo, lookup_insert]
  rfl

variable (cfg w n node working) in
theorem lookup_settled_version (id : Uuid) : (settled cfg w n node working).versions.lookup id =
    if id = working.id then some (w.committed working working.size (totalHash cfg working))
    else if node.currentVersionId = some id then (w.versions.lookup id).map supersededBy
    else w.versions.lookup id := lookup_switch _ _ _ _ _ _

variable (hw : Consistent cfg w) (hnode : w.nodes.lookup n = some node)

include hw hnode

theorem mem_stagingOf_switch {v : Uuid} (size : ℤ) (hash : String) {m : Uuid} {version : FileVersionRecord} :
    version ∈ (w.switchTo cfg.backend n v node (w.committed working size hash)).stagingOf m ↔
      version ∈ w.stagingOf m ∧ version.id ≠ v := by
  have hlook := lookup_switch (w := w) cfg.backend n v node (w.committed working size hash)
  rw [mem_stagingOf, mem_stagingOf]
  constructor
  · rintro ⟨⟨id, hid⟩, hm, hs⟩
    rw [hlook] at hid
    split_ifs at hid with h1 h2
    · cases hid
      cases hs
    · obtain ⟨old, hold, rfl⟩ := Option.map_eq_some_iff.mp hid
      obtain ⟨current, hc, -, hstate⟩ := hw.current hnode h2
      cases hold.symm.trans hc
      rw [supersededBy, if_pos hstate] at hs
      cases hs
    · exact ⟨⟨⟨id, hid⟩, hm, hs⟩, fun e => h1 ((hw.version hid).id_eq.symm.trans e)⟩
  · rintro ⟨⟨⟨id, hid⟩, hm, hs⟩, hne⟩
    have hid' := (hw.version hid).id_eq
    refine ⟨⟨id, ?_⟩, hm, hs⟩
    rw [hlook, if_neg fun e => hne (hid'.trans e), if_neg, hid]
    intro hc
    obtain ⟨current, hcur, -, hstate⟩ := hw.current hnode hc
    cases hid.symm.trans hcur
    rw [hs] at hstate
    cases hstate

theorem mem_stagingOf_settled {m : Uuid} {version : FileVersionRecord} :
    version ∈ (settled cfg w n node working).stagingOf m ↔
      version ∈ w.stagingOf m ∧ version.id ≠ working.id := mem_stagingOf_switch hw hnode _ _

variable (h : newest (w.stagingOf n) = some working)

include h

theorem settled_consistent : Consistent cfg (settled cfg w n node working) := by
  obtain ⟨hv, hn, -⟩ := newest_lookup hw h
  exact hw.switch (hw.version hv).size_range _ hnode hv hn

omit h in
theorem stagingOf_settled (hone : ∀ version ∈ w.stagingOf n, version.id = working.id) :
    (settled cfg w n node working).stagingOf n = [] := by
  refine List.eq_nil_iff_forall_not_mem.mpr fun version hmem => ?_
  obtain ⟨hold, hne⟩ := (mem_stagingOf_settled hw hnode).mp hmem
  exact hne (hone version hold)

theorem visibleByte_settled (hone : ∀ version ∈ w.stagingOf n, version.id = working.id) (p : ℕ) :
    visibleByte cfg (settled cfg w n node working) n p = visibleByte cfg w n p := by
  have hnone := newest_eq_none.mpr (stagingOf_settled hw hnode hone)
  have hlook := lookup_settled cfg w n node working n
  rw [if_pos rfl] at hlook
  rw [visibleByte_some (visibleVersion_of_newest h), visibleByte_some (v := working.id), byteOf_settled]
  rw [visibleVersion_of_none hnone hlook]
  rfl

end settled

end Dcfs
