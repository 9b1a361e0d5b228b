import Dcfs.File.Abandoned
import Dcfs.File.Reuploads

namespace Dcfs

open Machine Tables World Request Exec

variable {cfg : Config} {faults : Faults} {w u t : World} {n m v : Uuid} {node : NodeRecord}
  {version : FileVersionRecord} {row : FileChunkRecord} {plaintext body : Bytes}

def World.Stores (w : World) (n o : Uuid) : Prop := ∃ stored, w.objects.lookup o = some stored ∧ stored.file = n

def World.Refers (w : World) (o : Uuid) : Prop := ∃ v, ∃ row ∈ w.rowsOf v, row.objectId = o

/-- Every object put for the file is named by a row. -/
def Whole (w : World) (n : Uuid) : Prop := ∀ o, w.Stores n o → w.Refers o

/-- The object of the chunk is named by no other version. -/
def Sole (w : World) (v : Uuid) (i : ℤ) : Prop :=
  ∃ row, rowAt (w.rowsOf v) i = some row ∧ ∀ v', v' ≠ v → ∀ row' ∈ w.rowsOf v', row'.objectId ≠ row.objectId

def SameRows (w u : World) : Prop := u.objects = w.objects ∧ ∀ v, u.rowsOf v = w.rowsOf v

theorem SameRows.whole_iff (h : SameRows w u) : Whole u n ↔ Whole w n := by
  simp only [Whole, World.Stores, World.Refers, h.1, h.2]

section attach

theorem stores_of_row (hw : Consistent cfg w) (hv : w.versions.lookup v = some version) (hrow : row ∈ w.rowsOf v) :
    w.Stores version.nodeId row.objectId := by
  obtain ⟨plaintext, hsealed⟩ := (hw.rows_ok hv).sealed row hrow
  exact ⟨_, hsealed.stored, rfl⟩

theorem stores_lt (hw : Consistent cfg w) {o : Uuid} (h : w.Stores n o) : o < w.nextUuid := by
  obtain ⟨stored, hlook, -⟩ := h
  exact hw.object_lt hlook

theorem stores_putFresh (hu : Consistent cfg u) {o : Uuid} :
    (putFresh cfg u plaintext m).Stores n o ↔ u.Stores n o ∨ o = u.nextUuid ∧ m = n := by
  have hlook : (putFresh cfg u plaintext m).objects.lookup o = if o = u.nextUuid then
      some ⟨cfg.cipher.sealedBytes cfg.keyId u.nextUuid plaintext, m⟩ else u.objects.lookup o := lookup_insert _ _ _ _
  rw [World.Stores, hlook]
  split_ifs with ho
  · subst ho
    have hnone : ¬u.Stores n u.nextUuid := fun h => absurd (stores_lt hu h) (lt_irrefl _)
    simp [hnone]
  · simp [World.Stores, ho]

theorem putFresh_not_whole (hu : Consistent cfg u) : ¬Whole (putFresh cfg u plaintext n) n := by
  intro h
  obtain ⟨v, row, hrow, ho⟩ := h u.nextUuid ((stores_putFresh hu).mpr (.inr ⟨rfl, rfl⟩))
  exact (hu.named_lt (v := v) hrow).ne ho

theorem whole_putFresh_other (hu : Consistent cfg u) (hne : m ≠ n) :
    Whole (putFresh cfg u plaintext m) n ↔ Whole u n := by
  refine forall_congr' fun o => imp_congr ?_ Iff.rfl
  rw [stores_putFresh hu]
  simp [hne]

theorem rowsOf_putRow (x : Uuid) : (putRow cfg u n row plaintext).rowsOf x =
    if x = row.versionId then Keyed.upsert FileChunkRecord.chunkIndex row (u.rowsOf row.versionId)
    else u.rowsOf x := by
  simp only [putRow, World.rowsOf, World.setRows, lookup_insert]
  split_ifs <;> rfl

variable (hu : Consistent cfg u) (hv : u.versions.lookup row.versionId = some version)

include hu hv

variable (n plaintext) in
theorem mem_rowsOf_putRow (other : FileChunkRecord) :
    (∃ x, other ∈ (putRow cfg u n row plaintext).rowsOf x) ↔ other = row
      ∨ (other ∈ u.rowsOf row.versionId ∧ other.chunkIndex ≠ row.chunkIndex)
      ∨ ∃ x, x ≠ row.versionId ∧ other ∈ u.rowsOf x := by
  have hupsert := Keyed.mem_upsert_iff (a := row) (b := other) (hu.rows_ok hv).ordered
  constructor
  · rintro ⟨x, hmem⟩
    rw [rowsOf_putRow] at hmem
    split_ifs at hmem with hx
    · exact (hupsert.mp hmem).imp_right .inl
    · exact .inr (.inr ⟨x, hx, hmem⟩)
  · rintro (rfl | hkept | ⟨x, hx, hmem⟩)
    · exact ⟨other.versionId, by rw [rowsOf_putRow, if_pos rfl]; exact hupsert.mpr (.inl rfl)⟩
    · exact ⟨row.versionId, by rw [rowsOf_putRow, if_pos rfl]; exact hupsert.mpr (.inr hkept)⟩
    · exact ⟨x, by rwa [rowsOf_putRow, if_neg hx]⟩

theorem refers_putRow (hrow : row.objectId = u.nextUuid) {o : Uuid} :
    (putRow cfg u n row plaintext).Refers o ↔ o = u.nextUuid
      ∨ (∃ other ∈ u.rowsOf row.versionId, other.chunkIndex ≠ row.chunkIndex ∧ other.objectId = o)
      ∨ ∃ x, x ≠ row.versionId ∧ ∃ other ∈ u.rowsOf x, other.objectId = o := by
  have hmem := mem_rowsOf_putRow n plaintext hu hv
  constructor
  · rintro ⟨x, other, hother, rfl⟩
    rcases (hmem other).mp ⟨x, hother⟩ with rfl | ⟨hold, hkey⟩ | ⟨x, hx, hold⟩
    · exact .inl hrow
    · exact .inr (.inl ⟨other, hold, hkey, rfl⟩)
    · exact .inr (.inr ⟨x, hx, other, hold, rfl⟩)
  · rintro (rfl | ⟨other, hold, hkey, rfl⟩ | ⟨x, hx, other, hold, rfl⟩)
    · obtain ⟨x, hx⟩ := (hmem row).mpr (.inl rfl)
      exact ⟨x, row, hx, hrow⟩
    · obtain ⟨x, hx⟩ := (hmem other).mpr (.inr (.inl ⟨hold, hkey⟩))
      exact ⟨x, other, hx, rfl⟩
    · obtain ⟨y, hy⟩ := (hmem other).mpr (.inr (.inr ⟨x, hx, hold⟩))
      exact ⟨y, other, hy, rfl⟩

theorem whole_putRow (hrow : row.objectId = u.nextUuid) (hn : version.nodeId = n) :
    Whole (putRow cfg u n row plaintext) n ↔ Whole u n ∧ ¬Sole u row.versionId row.chunkIndex := by
  have hstores : ∀ {o}, (putRow cfg u n row plaintext).Stores n o ↔ u.Stores n o ∨ o = u.nextUuid ∧ n = n :=
    stores_putFresh hu
  have hordered := (hu.rows_ok hv).ordered
  constructor
  · intro h
    refine ⟨fun o ho => ?_, ?_⟩
    · rcases (refers_putRow hu hv hrow).mp (h o (hstores.mpr (.inl ho))) with rfl | ⟨other, hold, -, rfl⟩ | ⟨x, -, hold⟩
      · exact absurd (stores_lt hu ho) (lt_irrefl _)
      · exact ⟨_, other, hold, rfl⟩
      · exact ⟨x, hold⟩
    · rintro ⟨lost, hlost, hsole⟩
      obtain ⟨hmem, hkey⟩ := Keyed.mem_of_lookup hlost
      have hstored := hn ▸ stores_of_row hu hv hmem
      rcases (refers_putRow hu hv hrow).mp (h _ (hstores.mpr (.inl hstored))) with ho | ⟨other, hold, hne, ho⟩ |
        ⟨x, hx, other, hold, ho⟩
      · exact (hu.named_lt hmem).ne ho
      · -- rows that name one object are for one chunk
        have hsame := hu.shared hold hmem ho
        rw [hsame] at hkey
        exact hne hkey
      · exact hsole x hx other hold ho
  · rintro ⟨h, hsole⟩ o ho
    rw [refers_putRow hu hv hrow]
    rcases hstores.mp ho with hold | ⟨rfl, -⟩
    · obtain ⟨x, other, hother, rfl⟩ := h o hold
      by_cases hx : x = row.versionId
      · subst hx
        by_cases hkey : other.chunkIndex = row.chunkIndex
        · unfold Sole at hsole
          push Not at hsole
          obtain ⟨x, hx, third, hthird, ho⟩ := hsole other (hkey ▸ Keyed.lookup_of_mem hordered hother)
          exact .inr (.inr ⟨x, hx, third, hthird, ho⟩)
        · exact .inr (.inl ⟨other, hother, hkey, rfl⟩)
      · exact .inr (.inr ⟨x, hx, other, hother, rfl⟩)
    · exact .inl rfl

theorem whole_putRow_other (hrow : row.objectId = u.nextUuid) (hm : version.nodeId = m) (hne : m ≠ n) :
    Whole (putRow cfg u m row plaintext) n ↔ Whole u n := by
  have hstores : ∀ {o}, (putRow cfg u m row plaintext).Stores n o ↔ u.Stores n o := by
    intro o
    refine (stores_putFresh hu).trans ?_
    simp [hne]
  refine forall_congr' fun o => imp_congr_ctx hstores fun ho => ?_
  rw [refers_putRow hu hv hrow]
  constructor
  · rintro (rfl | ⟨other, hold, -, rfl⟩ | ⟨x, -, hold⟩)
    · exact absurd (stores_lt hu ho) (lt_irrefl _)
    · exact ⟨_, other, hold, rfl⟩
    · exact ⟨x, hold⟩
  · rintro ⟨x, other, hother, rfl⟩
    refine .inr (.inr ⟨x, ?_, other, hother, rfl⟩)
    rintro rfl
    obtain ⟨stored, hlook, hfile⟩ := ho
    obtain ⟨stored', hlook', hfile'⟩ := stores_of_row hu hv hother
    cases hlook.symm.trans hlook'
    exact hne (hm.symm.trans (hfile'.symm.trans hfile))

theorem sole_putRow {i : ℤ} (hi : i ≠ row.chunkIndex) :
    Sole (putRow cfg u n row plaintext) row.versionId i ↔ Sole u row.versionId i := by
  have hat : rowAt ((putRow cfg u n row plaintext).rowsOf row.versionId) i = rowAt (u.rowsOf row.versionId) i := by
    rw [rowsOf_putRow, if_pos rfl, rowAt_upsert hu hv, if_neg hi]
  unfold Sole
  rw [hat]
  refine exists_congr fun found => and_congr_right fun _ => forall_congr' fun x => imp_congr_right fun hx => ?_
  rw [rowsOf_putRow, if_neg hx]

end attach

section write

variable {plan : WritePlan} {old : ℕ → Bytes} {offset : ℕ}

theorem asI64_injOn {i j : ℕ} (hi : i < 2 ^ 64) (hj : j < 2 ^ 64) (h : asI64 i = asI64 j) : i = j := by
  rw [← asU64_asI64 i hi, h, asU64_asI64 j hj]

theorem whole_chunks {indexes : List ℕ} (h : Attaches cfg n v plan body old indexes u t) (hu : Consistent cfg u)
    (hv : u.versions.lookup v = some version) (hn : version.nodeId = n) (hnodup : indexes.Nodup) :
    Whole t n ↔ Whole u n ∧ ∀ i ∈ indexes, ¬Sole u v (asI64 i) := by
  induction h with
  | nil => simp
  | @cons i rest row u s t short first hrest ih =>
    obtain ⟨hfresh, hnodup⟩ := List.nodup_cons.mp hnodup
    rw [ih first.consistent (by rw [first.grown.versions, hv]) hnodup, List.forall_mem_cons, ← and_assoc]
    obtain rfl := first.version
    rw [first.eq, ← first.index]
    refine and_congr (whole_putRow hu hv first.object hn) (forall₂_congr fun j hj => not_congr ?_)
    refine sole_putRow hu hv fun h => hfresh ?_
    rwa [← asI64_injOn (hrest.short j hj) short (h.trans first.index)]

theorem WritePlan.touched_nodup (plan : WritePlan) : plan.touched.Nodup := by
  unfold WritePlan.touched
  have hreached : (List.range' plan.writeFirst
      (min plan.writeLast (plan.chunkCount - 1) + 1 - plan.writeFirst)).Nodup := List.nodup_range'
  cases htail : plan.rewriteLast with
  | none => exact hreached
  | some tail =>
    have houtside : tail < plan.writeFirst ∨ plan.writeLast < tail := by
      simp only [WritePlan.rewriteLast, Option.ite_none_right_eq_some, Option.some.injEq] at htail
      obtain ⟨⟨-, -, -, h⟩, rfl⟩ := htail
      exact h
    have hnot : tail ∉ List.range' plan.writeFirst
        (min plan.writeLast (plan.chunkCount - 1) + 1 - plan.writeFirst) := by
      rw [List.mem_range'_1]
      omega
    dsimp only
    split_ifs
    · exact List.nodup_cons.mpr ⟨hnot, hreached⟩
    · refine List.nodup_append.mpr ⟨hreached, List.nodup_singleton _, fun i hi j hj => ?_⟩
      rintro rfl
      rw [List.mem_singleton.mp hj] at hi
      exact hnot hi

theorem openWorkingVersion_objects (hw : Consistent cfg w) (hnode : w.nodes.lookup n = some node)
    (hexec : exec cfg faults (openWorkingVersion cfg n node) w = (.ok version, u)) : u.objects = w.objects := by
  cases hnew : newest (w.stagingOf n) with
  | some working =>
    cases (openWorkingVersion_open hnew).symm.trans hexec
    rfl
  | none =>
    cases hcur : node.currentVersionId with
    | none =>
      cases (openWorkingVersion_first hw hnode hnew hcur).symm.trans hexec
      rfl
    | some base =>
      obtain ⟨current, hcurrent, -, -⟩ := hw.current hnode hcur
      cases (openWorkingVersion_carried hw hnode hnew hcur hcurrent).symm.trans hexec
      rfl

theorem carried_row (hw : Consistent cfg w) (hnode : w.nodes.lookup n = some node)
    (hexec : exec cfg faults (openWorkingVersion cfg n node) w = (.ok version, u))
    (hopened : Opened cfg n node version w u) (hclosed : w.stagingOf n = []) (hrow : row ∈ u.rowsOf version.id) :
    ∃ x, x ≠ version.id ∧ ∃ row' ∈ w.rowsOf x, row'.objectId = row.objectId := by
  obtain ⟨made, hmade⟩ := hopened.consistent.version_of_row hrow
  have hat := Keyed.lookup_of_mem (hopened.consistent.rows_ok hmade).ordered hrow
  have hplaces := openWorkingVersion_rows hw hnode hexec row.chunkIndex
  rw [rowAt, hat, Option.map_some] at hplaces
  split_ifs at hplaces
  obtain ⟨source, hsource, hplace⟩ := Option.map_eq_some_iff.mp hplaces.symm
  obtain ⟨x, hx⟩ := mem_visibleRows (Keyed.mem_of_lookup hsource).1
  obtain ⟨base, hbase⟩ := hw.version_of_row hx
  refine ⟨x, ?_, source, hx, congrArg Prod.fst hplace⟩
  rintro rfl
  rw [(hopened.fresh hclosed).1] at hbase
  cases hbase

theorem whole_open (hw : Consistent cfg w) (hnode : w.nodes.lookup n = some node)
    (hexec : exec cfg faults (openWorkingVersion cfg n node) w = (.ok version, u))
    (hopened : Opened cfg n node version w u) : Whole u n ↔ Whole w n := by
  by_cases hclosed : w.stagingOf n = []
  · have hobjects := openWorkingVersion_objects hw hnode hexec
    have hrows : ∀ x, x ≠ version.id → u.rowsOf x = w.rowsOf x := by
      intro x hx
      rw [World.rowsOf, hopened.frame.chunks x hx, World.rowsOf]
    have hnone : w.rowsOf version.id = [] := by
      apply List.eq_nil_iff_forall_not_mem.mpr
      intro row hrow
      obtain ⟨base, hbase⟩ := hw.version_of_row hrow
      rw [(hopened.fresh hclosed).1] at hbase
      cases hbase
    have hrefers : ∀ o, u.Refers o ↔ w.Refers o := by
      intro o
      constructor
      · rintro ⟨x, row, hrow, rfl⟩
        by_cases hx : x = version.id
        · subst hx
          obtain ⟨y, -, hy⟩ := carried_row hw hnode hexec hopened hclosed hrow
          exact ⟨y, hy⟩
        · exact ⟨x, row, hrows x hx ▸ hrow, rfl⟩
      · rintro ⟨x, row, hrow, rfl⟩
        refine ⟨x, row, ?_, rfl⟩
        rw [hrows x]
        · exact hrow
        · rintro rfl
          rw [hnone] at hrow
          cases hrow
    simp only [Whole, World.Stores, hobjects, hrefers]
  · rw [hopened.unchanged hclosed]

def Ran.Loses (w : World) (n : Uuid) (node : NodeRecord) (offset : ℕ) (body : Bytes) : Prop :=
  ∃ working ∈ newest (w.stagingOf n),
    ∃ i ∈ (WritePlan.mk working.partSize offset (addU64 offset body.length) node.length).touched,
      Sole w working.id (asI64 i)

theorem Ran.whole_iff (hw : Consistent cfg w) (hnode : w.nodes.lookup n = some node)
    (h : Ran cfg faults n node version offset body plan old w u t) :
    Whole t n ↔ Whole w n ∧ ¬Ran.Loses w n node offset body := by
  rw [whole_chunks h.chunks h.opened.consistent h.working.1 h.working.2 plan.touched_nodup,
    whole_open hw hnode h.opens h.opened]
  refine and_congr_right fun _ => ?_
  unfold Ran.Loses
  push Not
  by_cases hclosed : w.stagingOf n = []
  · rw [hclosed]
    constructor
    · intro _ working hworking
      cases hworking
    · rintro - i - ⟨row, hat, hsole⟩
      obtain ⟨x, hx, source, hsource, ho⟩ := carried_row hw hnode h.opens h.opened hclosed (Keyed.mem_of_lookup hat).1
      refine hsole x hx source ?_ ho
      rw [World.rowsOf, h.opened.frame.chunks x hx]
      exact hsource
  · have hsame := h.opened.unchanged hclosed
    subst hsame
    rw [h.opened.newest, h.planned]
    simp

theorem whole_write (hw : Consistent cfg w) (hnode : w.nodes.lookup n = some node) (hkind : node.kind ≠ .directory)
    (hbody : body ≠ []) : Whole (exec cfg faults (writeBytes cfg n offset body) w).2 n ↔
      Whole w n ∧ ¬Ran.Loses w n node offset body := by
  obtain ⟨version, plan, old, u, t, updated, hran, -, hexec⟩ := exec_writeBytes_ran faults hw hnode hkind hbody offset
  obtain ⟨_, hfound⟩ := hran.lookup
  have hsized : SameRows t (sized t n version.id (asI64 plan.newSize)) := by
    rw [sized_eq _ _ hfound]
    exact ⟨rfl, fun _ => rfl⟩
  have hwrite : SameRows t (exec cfg faults (writeBytes cfg n offset body) w).2 := by
    rw [hexec, finished]
    split_ifs <;> exact hsized
  rw [hwrite.whole_iff, hran.whole_iff (hw.relocked (n :: w.nodeLocks)) hnode]
  rfl

end write

section requests

theorem commitNode_sameRows (hw : Consistent cfg w) : SameRows w (exec cfg faults (commitNode cfg m) w).2 := by
  cases hnode : w.nodes.lookup m with
  | none =>
    rw [exec_commitNode_missing faults hnode]
    exact ⟨rfl, fun _ => rfl⟩
  | some node =>
    cases hnew : newest (w.stagingOf m) with
    | none =>
      rw [exec_commitNode_none faults hnode hnew]
      exact ⟨rfl, fun _ => rfl⟩
    | some working =>
      rw [exec_commitNode faults hw hnode hnew]
      exact ⟨rfl, fun _ => rfl⟩

theorem stageVersion_sameRows (hw : Consistent cfg w) : SameRows w (exec cfg faults (stageVersion cfg m) w).2 := by
  cases hnode : w.nodes.lookup m with
  | none =>
    rw [exec_stageVersion_missing faults hnode]
    exact ⟨rfl, fun _ => rfl⟩
  | some node =>
    rw [exec_stageVersion faults hw hnode]
    refine ⟨rfl, fun v => ?_⟩
    dsimp only
    rw [staged, rowsOf_addVersion]
    split_ifs with hv
    · symm
      apply List.eq_nil_iff_forall_not_mem.mpr
      intro row hrow
      obtain ⟨version, hversion⟩ := hw.version_of_row hrow
      exact (hw.version hversion).id_lt.ne hv
    · rfl

theorem commitVersion_sameRows (hw : Consistent cfg w) (req : CommitVersionRequest) :
    SameRows w (exec cfg faults (commitVersion v req) w).2 := by
  rcases exec_commitVersion faults hw v req with ⟨e, hexec⟩ | ⟨version, node, response, -, hexec⟩
  · rw [hexec]
    exact ⟨rfl, fun _ => rfl⟩
  · rw [hexec]
    exact ⟨rfl, fun _ => rfl⟩

def HashAgrees (cfg : Config) (req : UploadChunkRequest) (body : Bytes) : Prop :=
  req.plaintextHash = "" ∨ req.plaintextHash = cfg.cipher.hashData body

instance (cfg : Config) (req : UploadChunkRequest) (body : Bytes) : Decidable (HashAgrees cfg req body) :=
  inferInstanceAs (Decidable (_ ∨ _))

theorem whole_upload (hw : Consistent cfg w) (hv : w.versions.lookup v = some version) (req : UploadChunkRequest) :
    Whole (exec cfg faults (uploadChunk cfg v req body) w).2 n ↔ Whole w n ∧ (version.nodeId = n →
      Puts cfg version req body → HashAgrees cfg req body ∧ ¬Sole w v (asI64 req.chunkIndex)) := by
  by_cases haccepts : Accepts cfg version req body
  · obtain ⟨response, row, t, hexec, hattached⟩ := exec_uploadChunk_accepted faults hw hv haccepts
    have hputs : Puts cfg version req body := ⟨haccepts.staging, haccepts.size, haccepts.fits⟩
    have hagrees : HashAgrees cfg req body := haccepts.hash
    obtain rfl := hattached.version
    rw [hexec, hattached.eq, ← hattached.index]
    by_cases hn : version.nodeId = n
    · rw [hn, whole_putRow hw hv hattached.object hn]
      simp [hputs, hagrees]
    · rw [whole_putRow_other hw hv hattached.object rfl hn]
      simp [hn]
  · obtain ⟨e, hexec⟩ := exec_uploadChunk_rejected faults hw hv haccepts
    have hmiss : ¬(Puts cfg version req body ∧ HashAgrees cfg req body) := fun h =>
      haccepts ⟨h.1.1, h.1.2.1, h.1.2.2, h.2⟩
    rw [hexec]
    dsimp only
    split_ifs with hputs
    · by_cases hn : version.nodeId = n
      · rw [hn]
        simp [putFresh_not_whole hw, hputs, not_and.mp hmiss hputs]
      · rw [whole_putFresh_other hw hn]
        simp [hn]
    · simp [hputs]

end requests

/-- The calls by which a file gets its content. -/
def Operation.Fills (n : Uuid) : Operation → Prop
  | .writeBytes m _ _ => m = n
  | .commitNode m => m = n
  | .stageVersion m => m = n
  | .uploadChunk _ _ _ => True
  | .commitVersion _ _ => True
  | .wait _ => True
  | _ => False

/-- The call takes no object's last row away and stores none without a row. -/
def Operation.KeepsRows (cfg : Config) (w : World) (n : Uuid) : Operation → Prop
  | .writeBytes _ offset body => ∀ node ∈ w.nodes.lookup n, node.kind ≠ .directory → body ≠ [] →
      ¬Ran.Loses w n node offset body
  | .uploadChunk v req body => ∀ version ∈ w.versions.lookup v, version.nodeId = n → Puts cfg version req body →
      HashAgrees cfg req body ∧ ¬Sole w v (asI64 req.chunkIndex)
  | _ => True

theorem whole_fill (hw : Consistent cfg w) {op : Operation} (hop : op.Fills n) :
    Whole (w.after cfg faults op) n ↔ Whole w n ∧ op.KeepsRows cfg w n := by
  cases op with
  | writeBytes m offset body =>
    obtain rfl : m = n := hop
    change Whole (exec cfg faults (writeBytes cfg m offset body) w).2 m ↔ _
    by_cases hbody : body = []
    · subst hbody
      simp [Operation.KeepsRows, exec_writeBytes_nil]
    by_cases hfile : ∃ node, w.nodes.lookup m = some node ∧ node.kind ≠ .directory
    · obtain ⟨node, hnode, hkind⟩ := hfile
      simp [Operation.KeepsRows, whole_write hw hnode hkind hbody, hnode, hkind, hbody]
    · have hrefused : ∀ node, w.nodes.lookup m = some node → node.kind = .directory := by
        intro node hnode
        by_contra hkind
        exact hfile ⟨node, hnode, hkind⟩
      rw [writeBytes_refused faults hrefused]
      exact (and_iff_left fun node hnode hkind => absurd (hrefused node hnode) hkind).symm
  | commitNode m => simp [Operation.KeepsRows, World.after, (commitNode_sameRows hw).whole_iff]
  | stageVersion m => simp [Operation.KeepsRows, World.after, (stageVersion_sameRows hw).whole_iff]
  | uploadChunk v req body =>
    change Whole (exec cfg faults (uploadChunk cfg v req body) w).2 n ↔ _
    cases hv : w.versions.lookup v with
    | none => simp [Operation.KeepsRows, hv, exec_uploadChunk_missing]
    | some version => simp [Operation.KeepsRows, hv, whole_upload hw hv]
  | commitVersion v req => simp [Operation.KeepsRows, World.after, (commitVersion_sameRows hw req).whole_iff]
  | wait time => exact (and_iff_left trivial).symm
  | _ => exact hop.elim

end Dcfs
