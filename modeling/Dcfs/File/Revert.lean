import Dcfs.File.Abandoned
import Dcfs.File.Pieces
import Dcfs.Server.Sample

namespace Dcfs

open Machine Tables World Request Exec

def readVersion (cfg : Config) (version : FileVersionRecord) (offset size : Option ℕ) : ReadRequest Bytes := do
  let offset := offset.getD 0
  let length := version.size.toNat
  if length ≤ offset then return []
  let size := min (size.getD (length - offset)) (length - offset)
  if size = 0 then return []
  readFrom cfg version offset size

variable {cfg : Config} {w u : World} {n c : Uuid} {node : NodeRecord} {version : FileVersionRecord}

theorem readVersion_inside {offset size : ℕ} (hpos : 0 < size) (hend : offset + size ≤ version.size.toNat) :
    readVersion cfg version (some offset) (some size) = readFrom cfg version offset size := by
  unfold readVersion
  dsimp only [Option.getD_some]
  rw [if_neg (by omega), min_eq_left (by omega), if_neg (by omega)]

theorem readVersion_congr {x : FileVersionRecord} (hsize : x.size = version.size)
    (h : ∀ offset size, 0 < size → offset + size ≤ version.size.toNat →
      (exec cfg noFaults (readFrom cfg x offset size) u).1 =
        (exec cfg noFaults (readFrom cfg version offset size) w).1) (offset size : Option ℕ) :
    (exec cfg noFaults (readVersion cfg x offset size) u).1 =
      (exec cfg noFaults (readVersion cfg version offset size) w).1 := by
  unfold readVersion
  dsimp only
  rw [hsize]
  split_ifs
  · rfl
  · rfl
  · exact h _ _ (by omega) (by omega)

variable (cfg) in
theorem readBytes_eq (hnode : u.nodes.lookup n = some node) (hkind : node.kind ≠ .directory)
    {x : FileVersionRecord} (hx : newest (u.stagingOf n) = some x ∨
      newest (u.stagingOf n) = none ∧ ∃ c, node.currentVersionId = some c ∧ u.versions.lookup c = some x)
    (offset size : Option ℕ) :
    (exec cfg noFaults (readBytes cfg n offset size) u).1.map Prod.fst =
      (exec cfg noFaults (readVersion cfg { x with size := node.size } offset size) u).1 := by
  have hvisible : ∀ o s, (exec cfg noFaults (readVisible cfg n node.currentVersionId o s) u).1.map Prod.fst =
      (exec cfg noFaults (readFrom cfg x o s) u).1 := by
    intro o s
    unfold readVisible
    rw [exec_step_query]
    rcases hx with hnew | ⟨hnone, c, hc, hv⟩
    · rw [answer_findOpen hnew]
      dsimp only
      rw [exec_bind_pure]
      cases (exec cfg noFaults (readFrom cfg x o s) u).1 <;> rfl
    · rw [answer_findOpen_none hnone, hc]
      dsimp only
      rw [exec_step_query, answer_getVersion hv, step_repo_ok, pure_bind, exec_bind_pure]
      cases (exec cfg noFaults (readFrom cfg x o s) u).1 <;> rfl
  rw [readBytes, exec_step_query, answer_getNode hnode, step_repo_ok, pure_bind, if_neg hkind]
  unfold readVersion
  dsimp only
  rw [NodeRecord.length]
  split_ifs
  · rfl
  · rfl
  · exact hvisible _ _

theorem mem_currentObjects (hcur : node.currentVersionId = some c) {o : Uuid} :
    o ∈ currentObjects w node ↔ ∃ row ∈ w.rowsOf c, row.objectId = o := by
  simp [currentObjects, hcur]

def World.objectsOf (w : World) (v : Uuid) : List Uuid := (w.rowsOf v).map FileChunkRecord.objectId

/-- Below the version's size the chunk behind the row reads as zeroes. -/
def Blank (cfg : Config) (w : World) (version : FileVersionRecord) (row : FileChunkRecord) : Prop :=
  ∀ start stop, start < stop → stop ≤ cfg.partSize →
    asU64 row.chunkIndex * cfg.partSize + stop ≤ version.size.toNat →
    slice cfg w row start stop = .ok (List.replicate (stop - start) 0)

/-- In `u` the node has the size and the bytes that the version has in `w`. -/
def Reverted (cfg : Config) (n : Uuid) (version : FileVersionRecord) (w u : World) : Prop :=
  (u.nodes.lookup n).map NodeRecord.size = some version.size ∧ ∀ offset size,
    (exec cfg noFaults (readBytes cfg n offset size) u).1.map Prod.fst =
      (exec cfg noFaults (readVersion cfg version offset size) w).1

section ebbed

variable (hw : Consistent cfg w) (h : Ebbed cfg n node w u) (hcur : node.currentVersionId = some c)
  (hversion : w.versions.lookup c = some version) {best : FileVersionRecord} (hbest : best ∈ sharing w n node)

include hw h hcur hversion hbest in
theorem Ebbed.shown_row {i : ℕ} {kept : FileChunkRecord} (hrow : atIndex (u.rowsOf best.id) i = some kept) :
    ∃ row, atIndex (w.rowsOf c) i = some row ∧ row.objectId ∈ w.objectsOf best.id
      ∧ ∀ start stop, shown cfg u (u.rowsOf best.id) i start stop = slice cfg w row start stop := by
  obtain ⟨hmem, ho⟩ := (h.mem_rowsOf hbest).mp (mem_of_atIndex hrow)
  obtain ⟨row, hrowc, hobject⟩ := (mem_currentObjects hcur).mp ho
  have hsame := hw.shared hrowc hmem hobject
  have hindex : asU64 row.chunkIndex = i := by
    rw [← index_of_atIndex hrow, hsame]
    rfl
  refine ⟨row, hindex ▸ atIndex_of_mem (hw.rows_ok hversion) hrowc,
    List.mem_map.mpr ⟨kept, hmem, hobject.symm⟩, fun start stop => ?_⟩
  rw [shown, hrow, hsame]
  exact slice_forVersion (h.aged.objects _ (hobject ▸ ho)) _ _ _

include hw h hcur hbest in
theorem Ebbed.shown_hole {i : ℕ} (hrow : atIndex (u.rowsOf best.id) i = none) {row : FileChunkRecord}
    (hrowc : atIndex (w.rowsOf c) i = some row) : row.objectId ∉ w.objectsOf best.id := by
  intro hnamed
  obtain ⟨kept, hmem, ho⟩ := List.mem_map.mp hnamed
  have hrowm := mem_of_atIndex hrowc
  have hsame := hw.shared hrowm hmem ho.symm
  have hkept := (h.mem_rowsOf hbest).mpr ⟨hmem, (mem_currentObjects hcur).mpr ⟨row, hrowm, ho.symm⟩⟩
  have hindex : asU64 kept.chunkIndex = i := by
    rw [← index_of_atIndex hrowc, hsame]
    rfl
  have hnone := List.find?_eq_none.mp hrow kept hkept
  simp [hindex] at hnone

include hw h hcur hversion hbest in
theorem Ebbed.shown_eq_iff (i start stop : ℕ) :
    shown cfg u (u.rowsOf best.id) i start stop = shown cfg w (w.rowsOf c) i start stop ↔
      ∀ row, atIndex (w.rowsOf c) i = some row → row.objectId ∉ w.objectsOf best.id →
        slice cfg w row start stop = .ok (List.replicate (stop - start) 0) := by
  cases hrow : atIndex (u.rowsOf best.id) i with
  | some kept =>
    obtain ⟨row, hrowc, hnamed, hshown⟩ := h.shown_row hw hcur hversion hbest hrow
    rw [hshown, shown, hrowc]
    refine ⟨fun _ other hother hnot => ?_, fun _ => rfl⟩
    cases hother
    exact absurd hnamed hnot
  | none =>
    rw [shown, hrow]
    cases hrowc : atIndex (w.rowsOf c) i with
    | none =>
      rw [shown, hrowc]
      exact ⟨fun _ _ hother => (by cases hother), fun _ => rfl⟩
    | some row =>
      rw [shown, hrowc]
      refine ⟨fun heq other hother _ => ?_, fun hall => ?_⟩
      · cases hother
        exact heq.symm
      · exact (hall row rfl (h.shown_hole hw hcur hbest hrow hrowc)).symm

include h hcur in
theorem Ebbed.shown_current (i start stop : ℕ) :
    shown cfg u (w.rowsOf c) i start stop = shown cfg w (w.rowsOf c) i start stop := by
  unfold shown
  cases hrow : atIndex (w.rowsOf c) i with
  | none => rfl
  | some row =>
    exact slice_forVersion
      (h.aged.objects _ ((mem_currentObjects hcur).mpr ⟨row, mem_of_atIndex hrow, rfl⟩)) row.versionId _ _

end ebbed

theorem mapError_injective : Function.Injective (Except.mapError Fault.error : Except AppError Bytes → _) := by
  intro x y h
  cases x <;> cases y <;> cases h <;> rfl

theorem readFrom_eq_iff {x : FileVersionRecord} {v : Uuid} (hu : Consistent cfg u)
    (hv : u.versions.lookup v = some x) (hw : Consistent cfg w) (hversion : w.versions.lookup c = some version) :
    (∀ offset size, 0 < size → offset + size ≤ version.size.toNat →
      (exec cfg noFaults (readFrom cfg x offset size) u).1 =
        (exec cfg noFaults (readFrom cfg version offset size) w).1) ↔
    ∀ i start stop, start < stop → stop ≤ cfg.partSize → i * cfg.partSize + stop ≤ version.size.toNat →
      shown cfg u (u.rowsOf v) i start stop = shown cfg w (w.rowsOf c) i start stop := by
  have hmax : version.size.toNat < 2 ^ 63 := by
    have := (hw.version hversion).size_range.2
    omega
  constructor
  · intro h i start stop hlt hstop hend
    apply mapError_injective
    rw [← readFrom_single hu hv hlt hstop (by omega), ← readFrom_single hw hversion hlt hstop (by omega)]
    exact h _ _ (by omega) (by omega)
  · intro h offset size hpos hend
    rw [readFrom_eq hu hv hpos (by omega), readFrom_eq hw hversion hpos (by omega)]
    split_ifs
    · rfl
    refine congrArg (fun pieces => Except.mapError _ (Except.map _ pieces)) (mapM'_congr fun next hnext => ?_)
    have hps := cfg.partSize_pos
    have hfl : offset / cfg.partSize ≤ (offset + size - 1) / cfg.partSize := Nat.div_le_div_right (by omega)
    rw [List.mem_range'_1, partsSpanned] at hnext
    have hfirst : offset < next * cfg.partSize + cfg.partSize :=
      (Nat.lt_div_mul_add hps).trans_le (Nat.add_le_add_right (Nat.mul_le_mul_right _ hnext.1) _)
    have hlast : next * cfg.partSize ≤ offset + size - 1 :=
      (Nat.mul_le_mul_right _ (by omega)).trans (Nat.div_mul_le_self (offset + size - 1) cfg.partSize)
    rw [piece_eq, piece_eq]
    exact h _ _ _ (by omega) (by omega) (by omega)

theorem reverted_iff {x : FileVersionRecord} {v : Uuid} (hu : Consistent cfg u)
    (hnode : u.nodes.lookup n = some node) (hkind : node.kind ≠ .directory)
    (hv : u.versions.lookup v = some x) (hx : newest (u.stagingOf n) = some x ∨
      newest (u.stagingOf n) = none ∧ node.currentVersionId = some v)
    (hw : Consistent cfg w) (hversion : w.versions.lookup c = some version) :
    Reverted cfg n version w u ↔ node.size = version.size ∧
      ∀ i start stop, start < stop → stop ≤ cfg.partSize → i * cfg.partSize + stop ≤ version.size.toNat →
        shown cfg u (u.rowsOf v) i start stop = shown cfg w (w.rowsOf c) i start stop := by
  rw [← readFrom_eq_iff hu hv hw hversion, Reverted, hnode, Option.map_some, Option.some.injEq]
  refine and_congr_right fun hsize => ?_
  have hread := readBytes_eq cfg hnode hkind (hx.imp_right fun ⟨hnone, hc⟩ => ⟨hnone, v, hc, hv⟩)
  constructor
  · intro h offset size hpos hend
    have hspec := h (some offset) (some size)
    rw [hread, readVersion_inside hpos hend, readVersion_inside hpos (by rw [hsize]; exact hend)] at hspec
    exact hspec
  · intro h offset size
    rw [hread]
    exact readVersion_congr (x := { x with size := node.size }) hsize h offset size

/-- What the sweeps leave of the open versions does not stand in the way of the committed one. -/
def GivesWay (cfg : Config) (w : World) (n : Uuid) (node : NodeRecord) (version : FileVersionRecord) : Prop :=
  match newest (sharing w n node) with
  | none => node.kind = .file ∨ node.size = version.size
  | some best => node.size = version.size ∧
      ∀ row ∈ w.rowsOf version.id, row.objectId ∉ w.objectsOf best.id → Blank cfg w version row

theorem Ebbed.reverted_iff_givesWay (hw : Consistent cfg w) (h : Ebbed cfg n node w u)
    (hkind : node.kind ≠ .directory) (hcur : node.currentVersionId = some c)
    (hversion : w.versions.lookup c = some version) : Reverted cfg n version w u ↔ GivesWay cfg w n node version := by
  have hu := h.aged.sound.consistent
  obtain ⟨size, hlook, hsize⟩ := h.aged.lookup
  have hid := (hw.version hversion).id_eq
  unfold GivesWay
  cases hbest : newest (sharing w n node) with
  | none =>
    have hnil := h.nothing_open (newest_eq_none.mp hbest)
    obtain ⟨hrows, base, hv⟩ := h.aged.current c version hcur hversion
    rw [reverted_iff hu hlook hkind hv (.inr ⟨newest_eq_none.mpr hnil, hcur⟩) hw hversion, hrows,
      and_iff_left fun i start stop _ _ _ => h.shown_current hcur i start stop]
    dsimp only
    by_cases hfile : node.kind = .file
    · have hcommitted := h.size hfile hnil
      rw [hlook, World.committedSize, hcur, Option.bind_some, hversion] at hcommitted
      exact ⟨fun _ => .inl hfile, fun _ => Option.some.inj hcommitted⟩
    · rw [hsize (.inr hfile)]
      exact ⟨.inr, fun hor => hor.resolve_left hfile⟩
  | some best =>
    have hmem := newest_mem hbest
    obtain ⟨base, hnew⟩ := h.newest_open hbest
    have hopen : u.stagingOf n ≠ [] := List.ne_nil_of_mem (newest_mem hnew)
    rw [reverted_iff hu hlook hkind (newest_lookup hu hnew).1 (.inl hnew) hw hversion, hsize (.inl hopen)]
    refine and_congr_right fun _ => ⟨fun hall row hrow hnot start stop hlt hstop hend => ?_,
      fun hblank i start stop hlt hstop hend => ?_⟩
    · have hat := atIndex_of_mem (hw.rows_ok hversion) (hid ▸ hrow)
      exact (h.shown_eq_iff hw hcur hversion hmem _ start stop).mp (hall _ start stop hlt hstop hend) row hat hnot
    · refine (h.shown_eq_iff hw hcur hversion hmem i start stop).mpr fun row hat hnot => ?_
      exact hblank row (hid ▸ mem_of_atIndex hat) hnot start stop hlt hstop (index_of_atIndex hat ▸ hend)

/--
Enough sweeps, each with every deletion succeeding, give the file its committed size and bytes back
just when the newest open version that shares a chunk with the committed one does not hide any of them.
-/
theorem abandoned_write_reverts_iff (hw : Reachable cfg w) (hnode : w.nodes.lookup n = some node)
    (hkind : node.kind ≠ .directory) (hcur : node.currentVersionId = some c)
    (hversion : w.versions.lookup c = some version) {working : FileVersionRecord}
    (hopen : newest (w.stagingOf n) = some working) {retention : ℕ}
    (hold : working.createdAt < w.now - retention) :
    (∃ enough, ∀ k ≥ enough, Reverted cfg n version w (w.sweeps cfg retention k)) ↔
      GivesWay cfg w n node version := by
  have hsound := hw.sound
  have hexpired : Expired w n (w.now - retention) := fun x hx => (newest_le hopen x hx).trans_lt hold
  have hebbed : ∀ k, weight w + 1 < k →
      (Reverted cfg n version w (w.sweeps cfg retention k) ↔ GivesWay cfg w n node version) := fun k hk =>
    (ebbed_sweeps hsound hnode hexpired hk).reverted_iff_givesWay hsound.consistent hkind hcur hversion
  constructor
  · rintro ⟨enough, hall⟩
    exact (hebbed (max enough (weight w + 2)) (by omega)).mp (hall _ (le_max_left _ _))
  · intro hway
    exact ⟨weight w + 2, fun k hk => (hebbed k (by omega)).mpr hway⟩

def leftOpen (committed : Bytes) (offset : ℕ) (body : Bytes) : World :=
  (World.fresh 0).trace (sample .memory)
    [newFile 7, .writeBytes 7 0 committed, .commitNode 7, .writeBytes 7 offset body, .wait 10]

theorem leftOpen_reachable (committed : Bytes) (offset : ℕ) (body : Bytes) :
    Reachable (sample .memory) (leftOpen committed offset body) := (Reachable.fresh 0).trace _

def replaced : World := leftOpen [1, 2, 3] 0 [9, 9, 9, 9]

theorem abandoned_write_reverts_replaced : ∃ version,
    replaced.versions.lookup 1 = some version ∧ version.size = 3
      ∧ ∃ enough, ∀ k ≥ enough, Reverted (sample .memory) 7 version replaced
        (replaced.sweeps (sample .memory) 0 k) := by
  have hreach : Reachable (sample .memory) replaced := leftOpen_reachable _ _ _
  have hfacts : (replaced.nodes.lookup 7).map (fun node =>
      (node.kind, node.currentVersionId, (newest (sharing replaced 7 node)).isNone)) =
        some (.file, some 1, true) := rfl
  have hcommitted : (replaced.versions.lookup 1).map FileVersionRecord.size = some 3 := by decide
  have hworking : (newest (replaced.stagingOf 7)).map (fun working =>
      decide (working.createdAt < replaced.now - (0 : ℕ))) = some true := rfl
  generalize replaced = w at *
  obtain ⟨node, hnode, hnodefacts⟩ := Option.map_eq_some_iff.mp hfacts
  obtain ⟨version, hversion, hsize⟩ := Option.map_eq_some_iff.mp hcommitted
  obtain ⟨working, hopen, hold⟩ := Option.map_eq_some_iff.mp hworking
  simp only [Prod.mk.injEq, Option.isNone_iff_eq_none] at hnodefacts
  obtain ⟨hkind, hcur, hnone⟩ := hnodefacts
  refine ⟨version, hversion, hsize, (abandoned_write_reverts_iff hreach hnode
    (by rw [hkind]; decide) hcur hversion hopen (of_decide_eq_true hold)).mpr ?_⟩
  rw [GivesWay, hnone]
  exact .inl hkind

def extended : World := leftOpen [1, 2, 3, 4, 5, 6] 5 [9, 9, 9, 9]

theorem abandoned_write_stays : Reachable (sample .memory) extended
    ∧ (exec (sample .memory) noFaults (readBytes (sample .memory) 7 none none)
        (extended.sweeps (sample .memory) 0 4)).1.toOption = some ([1, 2, 3, 4, 0, 0, 0, 0, 0], false)
    ∧ ∃ node version working, extended.nodes.lookup 7 = some node ∧ node.kind = .file
      ∧ node.currentVersionId = some 1 ∧ extended.versions.lookup 1 = some version
      ∧ newest (extended.stagingOf 7) = some working ∧ working.createdAt < extended.now - (0 : ℕ)
      ∧ ¬∃ enough, ∀ k ≥ enough, Reverted (sample .memory) 7 version extended
        (extended.sweeps (sample .memory) 0 k) := by
  -- The shared chunk keeps the open version from being purged: the file goes on reading as nine bytes.
  have hreach : Reachable (sample .memory) extended := leftOpen_reachable _ _ _
  have hread : (exec (sample .memory) noFaults (readBytes (sample .memory) 7 none none)
      (extended.sweeps (sample .memory) 0 4)).1.toOption = some ([1, 2, 3, 4, 0, 0, 0, 0, 0], false) := by
    decide +kernel
  have hfacts : (extended.nodes.lookup 7).map (fun node =>
      (node.kind, node.currentVersionId, node.size, (newest (sharing extended 7 node)).isSome)) =
        some (.file, some 1, 9, true) := by decide
  have hcommitted : (extended.versions.lookup 1).map FileVersionRecord.size = some 6 := by decide
  have hworking : (newest (extended.stagingOf 7)).map (fun working =>
      decide (working.createdAt < extended.now - (0 : ℕ))) = some true := rfl
  generalize extended = w at *
  obtain ⟨node, hnode, hnodefacts⟩ := Option.map_eq_some_iff.mp hfacts
  obtain ⟨version, hversion, hsize⟩ := Option.map_eq_some_iff.mp hcommitted
  obtain ⟨working, hopen, hold⟩ := Option.map_eq_some_iff.mp hworking
  simp only [Prod.mk.injEq] at hnodefacts
  obtain ⟨hkind, hcur, hnine, hshared⟩ := hnodefacts
  have hlate := of_decide_eq_true hold
  refine ⟨hreach, hread, node, version, working, hnode, hkind, hcur, hversion, hopen, hlate, ?_⟩
  rintro ⟨enough, hall⟩
  have hexpired : Expired w 7 (w.now - (0 : ℕ)) := fun x hx => (newest_le hopen x hx).trans_lt hlate
  have hebbed := ebbed_sweeps (k := max enough (weight w + 2)) hreach.sound hnode hexpired (by omega)
  have hway := (hebbed.reverted_iff_givesWay hreach.sound.consistent (by rw [hkind]; decide) hcur hversion).mp
    (hall _ (le_max_left _ _))
  obtain ⟨best, hbest⟩ := Option.isSome_iff_exists.mp hshared
  rw [GivesWay, hbest, hnine, hsize] at hway
  exact absurd hway.1 (by decide)

end Dcfs
