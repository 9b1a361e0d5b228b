import Dcfs.File.WriteChunk

namespace Dcfs

open Machine Tables World Request Exec Sparse

variable {cfg : Config} {faults : Faults} {w u : World}

theorem newest_of_max (hu : Consistent cfg u) {n : Uuid} {version : FileVersionRecord}
    (hmem : version ∈ u.stagingOf n)
    (hmax : ∀ other ∈ u.stagingOf n, other.createdAt ≤ version.createdAt) :
    newest (u.stagingOf n) = some version := by
  cases hnew : newest (u.stagingOf n) with
  | none =>
    rw [newest_eq_none.mp hnew] at hmem
    cases hmem
  | some best =>
    obtain ⟨⟨id, hid⟩, -, hs⟩ := mem_stagingOf.mp hmem
    obtain ⟨⟨id', hid'⟩, -, hs'⟩ := mem_stagingOf.mp (newest_mem hnew)
    have htime := le_antisymm (newest_le hnew _ hmem) (hmax _ (newest_mem hnew))
    cases hu.distinct hid hid' hs hs' htime
    rw [← hid, ← hid']

theorem stagingOf_congr (h : u.versions = w.versions) (n : Uuid) : u.stagingOf n = w.stagingOf n := by
  rw [stagingOf, h, stagingOf]

theorem lookup_carry {source target : List FileChunkRecord}
    (hs : Keyed.Ordered FileChunkRecord.chunkIndex source)
    (ht : Keyed.Ordered FileChunkRecord.chunkIndex target) (i : ℤ) :
    Keyed.lookup FileChunkRecord.chunkIndex i (carry source target) =
      (Keyed.lookup FileChunkRecord.chunkIndex i target).or
        (Keyed.lookup FileChunkRecord.chunkIndex i source) := by
  induction source generalizing target with
  | nil => simp [carry]
  | cons row rest ih =>
    rw [carry, List.foldl_cons, ← carry, ih hs.tail (Keyed.ordered_insertNew ht),
      Keyed.lookup_insertNew ht, Keyed.lookup_cons]
    by_cases hi : i = row.chunkIndex
    · rw [if_pos hi, if_pos hi.symm]
      cases Keyed.lookup FileChunkRecord.chunkIndex i target <;> rfl
    · rw [if_neg hi, if_neg (Ne.symm hi)]

theorem forVersion_key (v : Uuid) (row : FileChunkRecord) :
    (forVersion v row).chunkIndex = row.chunkIndex := rfl

theorem partsOf_carried (version : FileVersionRecord) {base : FileVersionRecord}
    {rows : List FileChunkRecord} (h : ManifestOk cfg w base rows) (hnode : base.nodeId = version.nodeId) {last i : ℕ}
    (hlast : last < 2 ^ 63) (hi : i < 2 ^ 64) :
    partsOf cfg w (carry ((rows.filter (fun c => 0 ≤ c.chunkIndex && c.chunkIndex ≤ asI64 last)).map
        (forVersion version.id)) []) i =
      if i ≤ last then partsOf cfg w rows i else none := by
  have hfilter := h.filter (fun c => 0 ≤ c.chunkIndex && c.chunkIndex ≤ asI64 last)
  have hempty : ManifestOk cfg w version [] := ⟨List.Pairwise.nil, by simp, by simp, by simp⟩
  rw [partsOf, atIndex_eq_lookup (hempty.carry hnode hfilter).index hi,
    lookup_carry (Keyed.ordered_map (forVersion_key _) hfilter.ordered) List.Pairwise.nil,
    Keyed.lookup_nil, Option.none_or, Keyed.lookup_map (forVersion_key _), Keyed.lookup_filter h.ordered,
    ← atIndex_eq_lookup h.index hi, partsOf]
  cases hrow : atIndex rows i with
  | none => simp
  | some row =>
    have hkey : row.chunkIndex = asI64 i := by
      rw [atIndex_eq_lookup h.index hi] at hrow
      exact Keyed.key_of_lookup hrow
    have hiff : (decide (0 ≤ row.chunkIndex) && decide (row.chunkIndex ≤ asI64 last)) = true ↔
        i ≤ last := by
      rw [hkey, asI64_of_lt hlast, Bool.and_eq_true, decide_eq_true_eq, decide_eq_true_eq]
      simp only [asI64, Int.bmod]
      split_ifs <;> omega
    rw [Option.filter_some]
    by_cases hle : i ≤ last
    · rw [if_pos (hiff.mpr hle), if_pos hle]
      rfl
    · rw [if_neg (mt hiff.mp hle), if_neg hle]
      rfl

structure Frame (n v : Uuid) (w u : World) : Prop where
  nodes : ∀ m, m ≠ n → u.nodes.lookup m = w.nodes.lookup m
  versions : ∀ id, id ≠ v → u.versions.lookup id = w.versions.lookup id
  chunks : ∀ id, id ≠ v → u.chunks.lookup id = w.chunks.lookup id
  objects : ∀ o stored, w.objects.lookup o = some stored → u.objects.lookup o = some stored
  sweeping : u.sweeping = w.sweeping
  nodeLocks : u.nodeLocks = w.nodeLocks

theorem Frame.refl (n v : Uuid) (w : World) : Frame n v w w :=
  ⟨fun _ _ => rfl, fun _ _ => rfl, fun _ _ => rfl, fun _ _ h => h, rfl, rfl⟩

theorem Frame.trans {n v : Uuid} {w u t : World} (h : Frame n v w u) (h' : Frame n v u t) :
    Frame n v w t where
  nodes m hm := (h'.nodes m hm).trans (h.nodes m hm)
  versions id hid := (h'.versions id hid).trans (h.versions id hid)
  chunks id hid := (h'.chunks id hid).trans (h.chunks id hid)
  objects o stored ho := h'.objects o stored (h.objects o stored ho)
  sweeping := h'.sweeping.trans h.sweeping
  nodeLocks := h'.nodeLocks.trans h.nodeLocks

theorem Grown.frame {n v : Uuid} {w u : World} (h : Grown v w u) : Frame n v w u :=
  ⟨fun _ _ => by rw [h.nodes], fun _ _ => by rw [h.versions], h.chunks, h.objects, h.sweeping, h.nodeLocks⟩

structure Opened (cfg : Config) (n : Uuid) (node : NodeRecord) (version : FileVersionRecord)
    (w u : World) : Prop where
  consistent : Consistent cfg u
  newest : newest (u.stagingOf n) = some version
  lookup : ∃ generation, u.nodes.lookup n = some { node with generation := generation }
  frame : Frame n version.id w u
  unchanged : w.stagingOf n ≠ [] → u = w
  fresh : w.stagingOf n = [] →
    w.versions.lookup version.id = none ∧ version.baseVersionId = node.currentVersionId
  bytes : ∀ p, p / cfg.partSize < 2 ^ 64 → byteOf cfg u version.id p =
    if w.stagingOf n = [] ∧ divCeil node.length cfg.partSize < p / cfg.partSize then 0 else visibleByte cfg w n p

theorem lookup_addVersion (n : Uuid) (node : NodeRecord) (version : FileVersionRecord) (id : Uuid) :
    (w.addVersion n node version).versions.lookup id =
      if id = w.nextUuid then some version else w.versions.lookup id := by
  rw [World.addVersion, lookup_insert]

theorem newest_addVersion (hw : Consistent cfg w) {n : Uuid} {node : NodeRecord} {base : Option Uuid}
    {chunkSize : ℤ} (hnode : w.nodes.lookup n = some node)
    (hsize : (max chunkSize 1).toNat = cfg.partSize) :
    newest ((w.addVersion n node (w.newVersion n base chunkSize)).stagingOf n) =
      some (w.newVersion n base chunkSize) := by
  refine newest_of_max (hw.addVersion hnode hsize) ?_ fun other hother => ?_
  · exact mem_stagingOf.mpr ⟨⟨w.nextUuid, by rw [lookup_addVersion, if_pos rfl]⟩, rfl, rfl⟩
  · obtain ⟨⟨id, hid⟩, -, -⟩ := mem_stagingOf.mp hother
    rw [lookup_addVersion] at hid
    split_ifs at hid
    · cases hid
      exact le_rfl
    · exact (hw.version hid).created_past.le

theorem addVersion_frame (n : Uuid) (node : NodeRecord) (version : FileVersionRecord) :
    Frame n w.nextUuid w (w.addVersion n node version) where
  nodes m hm := by rw [World.addVersion, lookup_insert, if_neg hm]
  versions id hid := by rw [lookup_addVersion, if_neg hid]
  chunks id hid := by rw [World.addVersion, lookup_insert, if_neg hid]
  objects _ _ h := h
  sweeping := rfl
  nodeLocks := rfl

theorem perform_createStaging (hw : Consistent cfg w) {n : Uuid} {node : NodeRecord} {base : Option Uuid}
    (hnode : w.nodes.lookup n = some node) (hbase : base = node.currentVersionId) (chunkSize : ℤ) :
    perform cfg faults w (.createStagingVersion n base chunkSize) =
      (.ok (w.newVersion n base chunkSize), w.addVersion n node (w.newVersion n base chunkSize)) := by
  have hknown : base.any (fun id => (w.versions.lookup id).isNone) = false := by
    cases hc : base with
    | none => rfl
    | some id =>
      obtain ⟨version, hv, -⟩ := hw.current hnode (hbase ▸ hc)
      simp [hv]
  simp only [perform, World.createStagingVersion, hnode, hknown, Bool.and_false]
  rfl

theorem divCeil_le {a b : ℕ} (hb : 0 < b) : divCeil a b ≤ a := by
  rw [divCeil]
  rcases Nat.eq_zero_or_pos a with rfl | ha
  · rw [Nat.div_eq_of_lt (by omega)]
  · obtain ⟨a, rfl⟩ := Nat.exists_eq_succ_of_ne_zero ha.ne'
    obtain ⟨b, rfl⟩ := Nat.exists_eq_succ_of_ne_zero hb.ne'
    refine Nat.div_le_of_le_mul ?_
    rw [Nat.succ_mul_succ]
    omega

theorem div_le_divCeil {a b p : ℕ} (h : p < a) : p / b ≤ divCeil a b :=
  Nat.div_le_div_right (by omega)

theorem visibleByte_none {n : Uuid} (h : visibleVersion w n = none) (p : ℕ) : visibleByte cfg w n p = 0 := by
  rw [visibleByte, h]

theorem visibleByte_some {n v : Uuid} (h : visibleVersion w n = some v) (p : ℕ) :
    visibleByte cfg w n p = byteOf cfg w v p := by
  rw [visibleByte, h]

theorem visibleVersion_of_newest {n : Uuid} {version : FileVersionRecord}
    (h : newest (w.stagingOf n) = some version) : visibleVersion w n = some version.id := by
  rw [visibleVersion, h]

theorem visibleVersion_of_none {n : Uuid} {node : NodeRecord} (h : newest (w.stagingOf n) = none)
    (hnode : w.nodes.lookup n = some node) : visibleVersion w n = node.currentVersionId := by
  rw [visibleVersion, h, hnode]
  rfl

theorem setRows_addVersion_nil (n : Uuid) (node : NodeRecord) (version : FileVersionRecord) :
    (w.addVersion n node version).setRows w.nextUuid [] = w.addVersion n node version := by
  simp only [World.setRows, World.addVersion, AList.insert_insert]

theorem perform_copy_new (hw : Consistent cfg w) {n base : Uuid} {node : NodeRecord}
    {current version : FileVersionRecord} {last : ℕ} (hcurrent : w.versions.lookup base = some current)
    (hid : version.id = w.nextUuid) (hlast : last < 2 ^ 63) :
    perform cfg faults (w.addVersion n node version) (.copyChunkRange base version.id 0 (asI64 last)) =
      let rows := carry (((w.rowsOf base).filter fun c => 0 ≤ c.chunkIndex && c.chunkIndex ≤ asI64 last).map
        (forVersion version.id)) []
      (.ok rows.length, (w.addVersion n node version).setRows w.nextUuid rows) := by
  have hne : base ≠ w.nextUuid := (hw.version hcurrent).id_lt.ne
  have hnew : (w.addVersion n node version).versions.lookup w.nextUuid = some version := by
    rw [lookup_addVersion, if_pos rfl]
  have hrows : (w.addVersion n node version).rowsOf base = w.rowsOf base := by
    simp only [World.rowsOf, World.addVersion, lookup_insert, if_neg hne]
  have hempty : (w.addVersion n node version).rowsOf w.nextUuid = [] := by
    simp [World.rowsOf, World.addVersion]
  have hpos : ¬ asI64 (last : ℤ) < 0 := by
    rw [asI64_of_lt hlast]
    omega
  rw [hid]
  simp [perform, World.copyChunkRange, hpos, World.rowsBetween, hrows, hempty, hnew]

theorem rowsOf_addVersion (n : Uuid) (node : NodeRecord) (version : FileVersionRecord) (v : Uuid) :
    (w.addVersion n node version).rowsOf v = if v = w.nextUuid then [] else w.rowsOf v := by
  simp only [World.rowsOf, World.addVersion, lookup_insert]
  split_ifs <;> rfl

theorem FromRows.addVersion {rows : List FileChunkRecord} (h : FromRows w rows) (hw : Consistent cfg w)
    (n : Uuid) (node : NodeRecord) (version : FileVersionRecord) :
    FromRows (w.addVersion n node version) rows := by
  obtain ⟨new, hnew⟩ := h
  refine ⟨new, fun row hrow => ?_⟩
  rcases hnew row hrow with ⟨v, old, hold, he⟩ | ⟨he, hfresh⟩
  · obtain ⟨base, hbase⟩ := hw.version_of_row hold
    refine .inl ⟨v, old, ?_, he⟩
    rwa [rowsOf_addVersion, if_neg (hw.version hbase).id_lt.ne]
  · refine .inr ⟨he, fun v old hold => ?_⟩
    rw [rowsOf_addVersion] at hold
    split_ifs at hold
    · cases hold
    · exact hfresh v old hold

theorem opened_new (hw : Consistent cfg w) {n : Uuid} {node : NodeRecord} {base : Option Uuid}
    {chunkSize : ℤ} {rows : List FileChunkRecord} (hnode : w.nodes.lookup n = some node)
    (hbase : base = node.currentVersionId) (hsize : (max chunkSize 1).toNat = cfg.partSize)
    (hnone : newest (w.stagingOf n) = none)
    (hrows : ManifestOk cfg w (w.newVersion n base chunkSize) rows) (hfrom : FromRows w rows)
    (hbytes : ∀ p, p / cfg.partSize < 2 ^ 64 → byteAt cfg.partSize (partsOf cfg w rows) p =
      if divCeil node.length cfg.partSize < p / cfg.partSize then 0 else visibleByte cfg w n p) :
    Opened cfg n node (w.newVersion n base chunkSize) w
      ((w.addVersion n node (w.newVersion n base chunkSize)).setRows w.nextUuid rows) := by
  have hadd : Consistent cfg (w.addVersion n node (w.newVersion n base chunkSize)) :=
    hw.addVersion hnode hsize
  have hlook := lookup_addVersion (w := w) n node (w.newVersion n base chunkSize) w.nextUuid
  rw [if_pos rfl] at hlook
  have hframe := (addVersion_frame n node (w.newVersion n base chunkSize)).trans
    (setRows_grown (u := w.addVersion n node (w.newVersion n base chunkSize)) w.nextUuid rows).frame
  refine ⟨hadd.setRows hlook (hrows.mono rfl rfl fun _ _ _ h => h) (hfrom.addVersion hw n node _),
    newest_addVersion hw hnode hsize,
    ⟨node.generation + 1, ?_⟩, hframe, fun h => absurd (newest_eq_none.mp hnone) h, fun _ => ⟨?_, hbase⟩,
    fun p hp => ?_⟩
  · rw [World.setRows, World.addVersion, lookup_insert, if_pos rfl]
  · cases hv : w.versions.lookup w.nextUuid with
    | none => exact hv
    | some version => exact absurd (hw.version hv).id_lt (lt_irrefl _)
  · change byteAt cfg.partSize (partsOf cfg _ (((w.addVersion n node _).setRows w.nextUuid rows).rowsOf
      w.nextUuid)) p = _
    rw [rowsOf_setRows]
    simp only [newest_eq_none.mp hnone, true_and]
    exact hbytes p hp

theorem length_lt (hw : Consistent cfg w) {n : Uuid} {node : NodeRecord}
    (hnode : w.nodes.lookup n = some node) : node.length < 2 ^ 63 := by
  have := (hw.node hnode).size_range.2
  simp only [NodeRecord.length]
  omega

def carriedRows (cfg : Config) (w : World) (node : NodeRecord) (base : Uuid) : List FileChunkRecord :=
  carry (((w.rowsOf base).filter fun c => 0 ≤ c.chunkIndex &&
    c.chunkIndex ≤ asI64 ↑(divCeil node.length cfg.partSize)).map (forVersion w.nextUuid)) []

section opening

variable {n base : Uuid} {node : NodeRecord} {current version : FileVersionRecord}

theorem openWorkingVersion_open (hnew : newest (w.stagingOf n) = some version) :
    exec cfg faults (openWorkingVersion cfg n node) w = (.ok version, w) := by
  unfold openWorkingVersion
  rw [exec_query, answer_findOpen hnew]
  rfl

variable (hw : Consistent cfg w) (hnode : w.nodes.lookup n = some node) (hnew : newest (w.stagingOf n) = none)

include hw hnode hnew

theorem openWorkingVersion_first (hcur : node.currentVersionId = none) :
    exec cfg faults (openWorkingVersion cfg n node) w = (.ok (w.newVersion n none (asI64 cfg.chunkSize)),
      w.addVersion n node (w.newVersion n none (asI64 cfg.chunkSize))) := by
  unfold openWorkingVersion
  rw [exec_query, answer_findOpen_none hnew, hcur]
  dsimp only
  rw [exec_ask, perform_createStaging hw hnode hcur.symm, repo_ok, exec_pure]

theorem openWorkingVersion_carried (hcur : node.currentVersionId = some base)
    (hcurrent : w.versions.lookup base = some current) :
    exec cfg faults (openWorkingVersion cfg n node) w = (.ok (w.newVersion n (some base) (max current.chunkSize 1)),
      (w.addVersion n node (w.newVersion n (some base) (max current.chunkSize 1))).setRows w.nextUuid
        (carriedRows cfg w node base)) := by
  have hsize : (max current.chunkSize 1).toNat = cfg.partSize := (hw.version hcurrent).part_size
  have hcount : divCeil node.length cfg.partSize < 2 ^ 63 :=
    (divCeil_le cfg.partSize_pos).trans_lt (length_lt hw hnode)
  unfold openWorkingVersion
  rw [exec_query, answer_findOpen_none hnew, hcur]
  dsimp only
  rw [exec_query, answer_getVersion hcurrent, repo_ok, pure_bind, exec_ask, perform_createStaging hw hnode hcur.symm,
    repo_ok, pure_bind, exec_ask, hsize, perform_copy_new hw hcurrent rfl hcount]
  rfl

end opening

variable (faults) in
theorem exec_openWorkingVersion (hw : Consistent cfg w) {n : Uuid} {node : NodeRecord}
    (hnode : w.nodes.lookup n = some node) :
    ∃ version u, exec cfg faults (openWorkingVersion cfg n node) w = (.ok version, u)
      ∧ Opened cfg n node version w u := by
  have hempty : ∀ version, ManifestOk cfg w version [] :=
    fun _ => ⟨List.Pairwise.nil, by simp, by simp, by simp⟩
  cases hnew : newest (w.stagingOf n) with
  | some version =>
    have hopen : w.stagingOf n ≠ [] := fun h => by
      rw [h] at hnew
      cases hnew
    refine ⟨version, w, openWorkingVersion_open hnew, hw, hnew, ⟨node.generation, hnode⟩, Frame.refl _ _ _,
      fun _ => rfl, fun h => absurd h hopen, fun p _ => ?_⟩
    rw [if_neg fun h => hopen h.1, visibleByte_some (visibleVersion_of_newest hnew)]
  | none =>
    have hvisible := visibleVersion_of_none hnew hnode
    cases hcur : node.currentVersionId with
    | none =>
      have hsize : (max (asI64 cfg.chunkSize) 1).toNat = cfg.partSize := rfl
      have hopened := opened_new hw hnode hcur.symm hsize hnew (hempty _) ⟨⟨0, 0, 0, 0, "", 0⟩, by simp⟩ fun p _ => ?_
      · rw [setRows_addVersion_nil] at hopened
        exact ⟨_, _, openWorkingVersion_first hw hnode hnew hcur, hopened⟩
      · rw [visibleByte_none (hvisible.trans hcur), ite_self]
        exact padded_nil _
    | some base =>
      obtain ⟨current, hcurrent, hcurNode, -⟩ := hw.current hnode hcur
      have hok := hw.rows_ok hcurrent
      have hsize' : (max (max current.chunkSize 1) 1).toNat = cfg.partSize := by
        rw [max_eq_left (le_max_right _ _)]
        exact (hw.version hcurrent).part_size
      have hcount : divCeil node.length cfg.partSize < 2 ^ 63 :=
        (divCeil_le cfg.partSize_pos).trans_lt (length_lt hw hnode)
      have hcarried : ManifestOk cfg w (w.newVersion n (some base) (max current.chunkSize 1))
          (carriedRows cfg w node base) := (hempty _).carry hcurNode (hok.filter _)
      have hfrom : FromRows w (carriedRows cfg w node base) := by
        refine ⟨⟨0, 0, 0, 0, "", 0⟩, fun row hrow => .inl ?_⟩
        rcases mem_carry hrow with hsource | hnil
        · obtain ⟨old, hold, rfl⟩ := List.mem_map.mp hsource
          exact ⟨base, old, List.mem_of_mem_filter hold, rfl⟩
        · cases hnil
      refine ⟨_, _, openWorkingVersion_carried hw hnode hnew hcur hcurrent,
        opened_new hw hnode hcur.symm hsize' hnew hcarried hfrom fun p hp => ?_⟩
      have hparts : partsOf cfg w (carriedRows cfg w node base) (p / cfg.partSize) = _ :=
        partsOf_carried (w.newVersion n (some base) (max current.chunkSize 1)) hok hcurNode hcount hp
      rw [visibleByte_some (hvisible.trans hcur), byteOf, byteAt, byteAt, hparts]
      by_cases hle : p / cfg.partSize ≤ divCeil node.length cfg.partSize
      · rw [if_pos hle, if_neg (not_lt.mpr hle)]
      · rw [if_neg hle, if_pos (not_le.mp hle)]
        exact padded_nil _

end Dcfs
