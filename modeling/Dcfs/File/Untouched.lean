import Dcfs.File.Aged
import Dcfs.File.Refinement

namespace Dcfs

open Machine Tables World Exec Sparse

variable {cfg : Config} {w u : World} {n m : Uuid} {bytes : Bytes}

def World.Staged (w : World) (n v : Uuid) (size : ℤ) : Prop :=
  ∃ version ∈ w.stagingOf n, version.id = v ∧ version.size = size

def World.versionSize (w : World) (v : Uuid) : Option ℤ := (w.versions.lookup v).map FileVersionRecord.size

def SameFile (n : Uuid) (w u : World) : Prop :=
  ∀ node, w.nodes.lookup n = some node → ∃ node', u.nodes.lookup n = some node'
    ∧ node'.kind = node.kind ∧ node'.size = node.size ∧ node'.currentVersionId = node.currentVersionId

structure Untouched (cfg : Config) (n : Uuid) (w u : World) : Prop where
  node : SameFile n w u
  staged : ∀ v size, u.Staged n v size ↔ w.Staged n v size
  visible : ∀ v, visibleVersion w n = some v → byteOf cfg u v = byteOf cfg w v ∧ u.versionSize v = w.versionSize v

structure Stands (cfg : Config) (w : World) (n : Uuid) (bytes : Bytes) : Prop extends Holds cfg w n bytes where
  sized : ∀ v, visibleVersion w n = some v → w.versionSize v = some (bytes.length : ℤ)

theorem NewFile.stands (hw : Consistent cfg w) (h : NewFile w n) : Stands cfg w n [] := by
  refine ⟨h.holds hw, fun v hv => ?_⟩
  obtain ⟨node, hnode, -, -, hcur⟩ := h.node
  have hnone : newest (w.stagingOf n) = none := by
    apply newest_eq_none.mpr
    apply List.eq_nil_iff_forall_not_mem.mpr
    intro version hmem
    obtain ⟨⟨id, hid⟩, hn, -⟩ := mem_stagingOf.mp hmem
    exact h.unwritten version (mem_values.mpr ⟨id, hid⟩) hn
  rw [visibleVersion_of_none hnone hnode, hcur] at hv
  cases hv

theorem Holds.stands_of_newest (h : Holds cfg w n bytes) {version : FileVersionRecord}
    (hnew : newest (w.stagingOf n) = some version) : Stands cfg w n bytes := by
  refine ⟨h, fun v hv => ?_⟩
  rw [visibleVersion_of_newest hnew] at hv
  cases hv
  rw [World.versionSize, (newest_lookup h.consistent hnew).1, Option.map_some,
    (h.single version (newest_mem hnew)).2]

theorem Holds.stands_settled (h : Holds cfg w n bytes) {node : NodeRecord} {working : FileVersionRecord}
    (hnode : w.nodes.lookup n = some node) (hnew : newest (w.stagingOf n) = some working) :
    Stands cfg (Dcfs.settled cfg w n node working) n bytes := by
  refine ⟨h.settled hnode hnew, fun v hv => ?_⟩
  have hone : ∀ version ∈ w.stagingOf n, version.id = working.id := by
    intro version hmem
    cases hnew.symm.trans (h.single version hmem).1
    rfl
  have hlook := lookup_settled cfg w n node working n
  rw [if_pos rfl] at hlook
  rw [visibleVersion_of_none (newest_eq_none.mpr (stagingOf_settled h.consistent hnode hone)) hlook] at hv
  cases hv
  have hversion := lookup_settled_version cfg w n node working working.id
  rw [if_pos rfl] at hversion
  rw [World.versionSize, hversion, Option.map_some]
  exact congrArg some (h.single working (newest_mem hnew)).2

section visible

theorem Holds.staged_eq (h : Holds cfg w n bytes) {v : Uuid} {size : ℤ} (hv : w.Staged n v size) :
    visibleVersion w n = some v ∧ size = bytes.length := by
  obtain ⟨version, hmem, rfl, rfl⟩ := hv
  obtain ⟨hnew, hsize⟩ := h.single version hmem
  exact ⟨visibleVersion_of_newest hnew, hsize⟩

theorem Untouched.visibleVersion_eq (h : Untouched cfg n w u) (hw : Holds cfg w n bytes) :
    visibleVersion u n = visibleVersion w n := by
  obtain ⟨node, hnode, -⟩ := hw.node
  obtain ⟨node', hnode', -, -, hcur⟩ := h.node node hnode
  cases hnew : newest (u.stagingOf n) with
  | some version =>
    have hstaged := (h.staged _ _).mp ⟨version, newest_mem hnew, rfl, rfl⟩
    rw [visibleVersion_of_newest hnew, (hw.staged_eq hstaged).1]
  | none =>
    have hnone : newest (w.stagingOf n) = none := by
      apply newest_eq_none.mpr
      apply List.eq_nil_iff_forall_not_mem.mpr
      intro version hmem
      obtain ⟨other, hother, -⟩ := (h.staged _ _).mpr ⟨version, hmem, rfl, rfl⟩
      rw [newest_eq_none.mp hnew] at hother
      cases hother
    rw [visibleVersion_of_none hnew hnode', visibleVersion_of_none hnone hnode, hcur]

end visible

theorem Stands.untouched (h : Stands cfg w n bytes) (hu : Consistent cfg u) (htouch : Untouched cfg n w u) :
    Stands cfg u n bytes := by
  have hvisible := htouch.visibleVersion_eq h.toHolds
  obtain ⟨node, hnode, hkind, hsize⟩ := h.node
  obtain ⟨node', hnode', hkind', hsize', -⟩ := htouch.node node hnode
  refine ⟨⟨hu, ⟨node', hnode', hkind' ▸ hkind, hsize'.trans hsize⟩, h.short, fun p hp => ?_, fun version hmem => ?_,
    fun hnone => ?_⟩, fun v hv => ?_⟩
  · rw [← h.visible p hp, visibleByte, visibleByte, hvisible]
    cases hv : visibleVersion w n with
    | none => rfl
    | some v => exact congrFun (htouch.visible v hv).1 p
  · have hstaged := h.staged_eq ((htouch.staged _ _).mp ⟨version, hmem, rfl, rfl⟩)
    refine ⟨?_, hstaged.2⟩
    cases hnew : newest (u.stagingOf n) with
    | none =>
      rw [newest_eq_none.mp hnew] at hmem
      cases hmem
    | some other =>
      -- both are the version that is read
      have hother := h.staged_eq ((htouch.staged _ _).mp ⟨other, newest_mem hnew, rfl, rfl⟩)
      have hid : other.id = version.id := Option.some.inj (hother.1.symm.trans hstaged.1)
      obtain ⟨⟨id, hlook⟩, -⟩ := mem_stagingOf.mp hmem
      obtain ⟨hother, -⟩ := newest_lookup hu hnew
      rw [hid, (hu.version hlook).id_eq, hlook] at hother
      exact hother.symm
  · exact h.empty (hvisible ▸ hnone)
  · rw [hvisible] at hv
    rw [(htouch.visible v hv).2, h.sized v hv]

namespace Untouched

theorem of_others (hw : Consistent cfg w) (hnode : u.nodes.lookup n = w.nodes.lookup n)
    (hversions : ∀ id version, version.nodeId = n →
      (u.versions.lookup id = some version ↔ w.versions.lookup id = some version))
    (hrows : ∀ id version, w.versions.lookup id = some version → version.nodeId = n → u.rowsOf id = w.rowsOf id)
    (hobjects : ∀ o stored, w.objects.lookup o = some stored → u.objects.lookup o = some stored) :
    Untouched cfg n w u := by
  refine ⟨fun node h => ⟨node, hnode ▸ h, rfl, rfl, rfl⟩, fun v size => ?_, fun v hv => ?_⟩
  · apply exists_congr
    intro version
    apply and_congr_left
    intro _
    rw [mem_stagingOf, mem_stagingOf]
    constructor
    · rintro ⟨⟨id, hid⟩, hn, hs⟩
      exact ⟨⟨id, (hversions id version hn).mp hid⟩, hn, hs⟩
    · rintro ⟨⟨id, hid⟩, hn, hs⟩
      exact ⟨⟨id, (hversions id version hn).mpr hid⟩, hn, hs⟩
  · obtain ⟨version, hlook, hn⟩ := visible_lookup hw hv
    refine ⟨byteOf_mono hw hlook (hrows v version hlook hn) fun row _ stored => hobjects row.objectId stored, ?_⟩
    rw [World.versionSize, World.versionSize, (hversions v version hn).mpr hlook, hlook]

theorem of_frame {v : Uuid} (hw : Consistent cfg w) (hne : m ≠ n) (h : Frame m v w u)
    (hold : ∀ version, w.versions.lookup v = some version → version.nodeId ≠ n)
    (hnew : ∀ version, u.versions.lookup v = some version → version.nodeId ≠ n) : Untouched cfg n w u := by
  have hversion : ∀ id version, w.versions.lookup id = some version → version.nodeId = n → id ≠ v := by
    rintro id version hid hn rfl
    exact hold version hid hn
  refine of_others hw (h.nodes n hne.symm) (fun id version hn => ?_) (fun id version hid hn => ?_) h.objects
  · by_cases hid : id = v
    · subst hid
      constructor
      · intro hlook
        exact absurd hn (hnew version hlook)
      · intro hlook
        exact absurd hn (hold version hlook)
    · rw [h.versions id hid]
  · rw [World.rowsOf, h.chunks id (hversion id version hid hn), World.rowsOf]

theorem lookup_switch_other (hw : Consistent cfg w) {v id : Uuid} {node : NodeRecord}
    {version made other : FileVersionRecord} (hne : m ≠ n) (hnode : w.nodes.lookup m = some node)
    (hv : w.versions.lookup v = some version) (hvn : version.nodeId = m) (hmade : made.nodeId = m) (b : Backend)
    (hn : other.nodeId = n) :
    (w.switchTo b m v node made).versions.lookup id = some other ↔ w.versions.lookup id = some other := by
  rw [lookup_switch]
  split_ifs with hid hcur
  · rw [hid, hv, Option.some.injEq, Option.some.injEq]
    constructor
    · rintro rfl
      exact absurd (hn.symm.trans hmade) hne.symm
    · rintro rfl
      exact absurd (hn.symm.trans hvn) hne.symm
  · obtain ⟨current, hc, hcn, -⟩ := hw.current hnode hcur
    have hsuper : (supersededBy current).nodeId = m := by
      unfold supersededBy
      split_ifs
      · exact hcn
      · exact hcn
    rw [hc, Option.map_some, Option.some.injEq, Option.some.injEq]
    constructor
    · rintro rfl
      exact absurd (hn.symm.trans hsuper) hne.symm
    · rintro rfl
      exact absurd (hn.symm.trans hcn) hne.symm
  · rfl

theorem of_switch (hw : Consistent cfg w) {v : Uuid} {node : NodeRecord} {version made : FileVersionRecord}
    (hne : m ≠ n) (hnode : w.nodes.lookup m = some node) (hv : w.versions.lookup v = some version)
    (hvn : version.nodeId = m) (hmade : made.nodeId = m) (b : Backend) :
    Untouched cfg n w (w.switchTo b m v node made) := by
  have hnodes : (w.switchTo b m v node made).nodes.lookup n = w.nodes.lookup n := by
    rw [World.switchTo, lookup_insert, if_neg hne.symm]
  exact of_others hw hnodes (fun _ _ hn => lookup_switch_other hw hne hnode hv hvn hmade b hn)
    (fun _ _ _ _ => rfl) fun _ _ h => h

theorem of_names (hversions : u.versions = w.versions) (hchunks : u.chunks = w.chunks)
    (hobjects : u.objects = w.objects) (hnode : SameFile n w u) : Untouched cfg n w u := by
  refine ⟨hnode, fun v size => ?_, fun v _ => ⟨?_, ?_⟩⟩
  · rw [World.Staged, stagingOf_congr hversions, World.Staged]
  · funext p
    rw [byteOf, byteOf, World.rowsOf, hchunks, World.rowsOf]
    apply Sparse.byteAt_congr
    rw [partsOf, partsOf]
    congr 1
    funext row
    rw [plaintextOf, plaintextOf, hobjects]
  · rw [World.versionSize, hversions, World.versionSize]

end Untouched

end Dcfs
