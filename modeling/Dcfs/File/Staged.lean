import Dcfs.File.Collected

namespace Dcfs

open Machine Tables World Request Exec Sparse

variable {cfg : Config} {faults : Faults} {w s t : World} {n v : Uuid} {node : NodeRecord}
  {version : FileVersionRecord} {ops : List Operation}

def Operation.Stages (n : Uuid) : Operation → Prop
  | .stageVersion m => m = n
  | .uploadChunk _ _ _ => True
  | .commitVersion _ _ => True
  | .commitNode m => m = n
  | _ => False

/-- Every commit of a version is turned down. -/
def Refused (cfg : Config) (faults : Faults) : World → List Operation → Prop
  | _, [] => True
  | w, op :: rest => (∀ v req, op = .commitVersion v req → (exec cfg faults (commitVersion v req) w).1.toBool = false)
      ∧ Refused cfg faults (w.after cfg faults op) rest

/-- No sync finds a version to commit. -/
def NothingSynced (cfg : Config) (faults : Faults) (n : Uuid) : World → List Operation → Prop
  | _, [] => True
  | w, op :: rest => (op = .commitNode n → w.stagingOf n = [])
      ∧ NothingSynced cfg faults n (w.after cfg faults op) rest

def readAnswer (cfg : Config) (faults : Faults) (n : Uuid) (offset size : Option ℕ) (w : World) :
    Except (Fault AppError) Bytes :=
  (exec cfg faults (readBytes cfg n offset size) w).1.map Prod.fst

section steps

/-- The node's record and every version that is not staged are as they were. -/
structure Unmoved (cfg : Config) (n : Uuid) (s t : World) : Prop where
  consistent : Consistent cfg t
  node : ∀ node, s.nodes.lookup n = some node → ∃ node', t.nodes.lookup n = some node' ∧ node'.kind = node.kind
    ∧ node'.size = node.size ∧ node'.currentVersionId = node.currentVersionId
  settled : ∀ {id version}, s.versions.lookup id = some version → version.state ≠ .staging →
    t.versions.lookup id = some version ∧ byteOf cfg t id = byteOf cfg s id

theorem Unmoved.refl (hs : Consistent cfg s) : Unmoved cfg n s s :=
  ⟨hs, fun node hnode => ⟨node, hnode, rfl, rfl, rfl⟩, fun hv _ => ⟨hv, rfl⟩⟩

theorem unmoved_stage (hs : Consistent cfg s) (hnode : s.nodes.lookup n = some node) :
    Unmoved cfg n s (staged cfg s n node) := by
  refine ⟨staged_consistent hs hnode, fun found hfound => ?_, fun {id version} hv _ => ?_⟩
  · cases hnode.symm.trans hfound
    rw [staged, World.addVersion, lookup_insert, if_pos rfl]
    exact ⟨_, rfl, rfl, rfl, rfl⟩
  · have hne := (hs.version hv).id_lt.ne
    refine ⟨by rw [staged, lookup_addVersion, if_neg hne, hv], byteOf_mono hs hv ?_ fun _ _ _ hstored => hstored⟩
    rw [staged, rowsOf_addVersion, if_neg hne]

theorem unmoved_upload (hs : Consistent cfg s) (v : Uuid) (req : UploadChunkRequest) (body : Bytes) :
    Unmoved cfg n s (s.after cfg faults (.uploadChunk v req body)) := by
  change Unmoved cfg n s (exec cfg faults (uploadChunk cfg v req body) s).2
  obtain ⟨ht, hgrown, hchunks⟩ := uploadChunk_grown faults hs v req body rfl
  refine ⟨ht, fun node hnode => ⟨node, hgrown.nodes ▸ hnode, rfl, rfl, rfl⟩, fun {id version} hid hstate =>
    ⟨hgrown.versions ▸ hid, byteOf_mono hs hid ?_ fun _ _ => hgrown.objects _⟩⟩
  rw [World.rowsOf, World.rowsOf]
  by_cases hne : id = v
  · subst hne
    rw [hchunks fun found hfound haccepts => ?_]
    cases hid.symm.trans hfound
    exact hstate haccepts.staging
  · rw [hgrown.chunks id hne]

theorem unmoved_step (hs : Consistent cfg s) (hnode : s.nodes.lookup n = some node) {op : Operation}
    (hop : op.Stages n)
    (hrefused : ∀ v req, op = .commitVersion v req → (exec cfg faults (commitVersion v req) s).1.toBool = false)
    (hclosed : op = .commitNode n → s.stagingOf n = []) : Unmoved cfg n s (s.after cfg faults op) := by
  cases op with
  | stageVersion m =>
    obtain rfl : m = n := hop
    change Unmoved cfg m s (exec cfg faults (stageVersion cfg m) s).2
    rw [exec_stageVersion faults hs hnode]
    exact unmoved_stage hs hnode
  | uploadChunk v req body => exact unmoved_upload hs v req body
  | commitVersion v req =>
    have hfails := hrefused v req rfl
    change Unmoved cfg n s (exec cfg faults (commitVersion v req) s).2
    rcases exec_commitVersion faults hs v req with ⟨e, hexec⟩ | ⟨version, node, response, -, hexec⟩
    · rw [hexec]
      exact .refl hs
    · rw [hexec] at hfails
      cases hfails
  | commitNode m =>
    obtain rfl : m = n := hop
    change Unmoved cfg m s (exec cfg faults (commitNode cfg m) s).2
    rw [exec_commitNode_none faults hnode (newest_eq_none.mpr (hclosed rfl))]
    exact .refl hs
  | _ => cases hop

/-- The file is as it was, apart from versions that were staged. -/
structure Aside (cfg : Config) (n : Uuid) (node : NodeRecord) (w t : World) : Prop where
  consistent : Consistent cfg t
  lookup : ∃ node', t.nodes.lookup n = some node' ∧ node'.kind = node.kind ∧ node'.size = node.size
    ∧ node'.currentVersionId = node.currentVersionId
  bytes : ∀ v, node.currentVersionId = some v → byteOf cfg t v = byteOf cfg w v

theorem Aside.current (h : Aside cfg n node w t) (hv : node.currentVersionId = some v) :
    ∃ version, t.versions.lookup v = some version ∧ version.state ≠ .staging := by
  obtain ⟨node', hnode', -, -, hcurrent⟩ := h.lookup
  obtain ⟨version, hversion, -, hstate⟩ := h.consistent.current hnode' (hcurrent.trans hv)
  exact ⟨version, hversion, by rw [hstate]; decide⟩

theorem Aside.unmoved (h : Aside cfg n node w s) (hunmoved : Unmoved cfg n s t) : Aside cfg n node w t := by
  obtain ⟨node', hnode', hkind, hsize, hcurrent⟩ := h.lookup
  obtain ⟨last, hlast, hkind', hsize', hcurrent'⟩ := hunmoved.node node' hnode'
  refine ⟨hunmoved.consistent, ⟨last, hlast, hkind'.trans hkind, hsize'.trans hsize, hcurrent'.trans hcurrent⟩,
    fun v hv => ?_⟩
  obtain ⟨version, hversion, hstate⟩ := h.current hv
  rw [(hunmoved.settled hversion hstate).2, h.bytes v hv]

/-- Another version has taken the place of the one the file had, which is staged no more. -/
structure Overtaken (cfg : Config) (n : Uuid) (old : Option Uuid) (t : World) : Prop where
  consistent : Consistent cfg t
  lookup : ∃ node v, t.nodes.lookup n = some node ∧ node.currentVersionId = some v ∧ old ≠ some v
  settled : ∀ v, old = some v → ∃ version, t.versions.lookup v = some version ∧ version.state ≠ .staging

theorem Overtaken.unmoved {old : Option Uuid} (h : Overtaken cfg n old s) (hunmoved : Unmoved cfg n s t) :
    Overtaken cfg n old t := by
  obtain ⟨node, v, hnode, hcurrent, hne⟩ := h.lookup
  obtain ⟨last, hlast, -, -, hsame⟩ := hunmoved.node node hnode
  refine ⟨hunmoved.consistent, ⟨last, v, hlast, hsame.trans hcurrent, hne⟩, fun v hv => ?_⟩
  obtain ⟨version, hversion, hstate⟩ := h.settled v hv
  exact ⟨version, (hunmoved.settled hversion hstate).1, hstate⟩

theorem overtaken_sync {old : Option Uuid} (hs : Consistent cfg s) (hnode : s.nodes.lookup n = some node)
    (hold : ∀ v, old = some v → ∃ version, s.versions.lookup v = some version ∧ version.state ≠ .staging)
    (hopen : s.stagingOf n ≠ []) : Overtaken cfg n old (s.after cfg faults (.commitNode n)) := by
  obtain ⟨working, hnew⟩ := Option.ne_none_iff_exists'.mp (mt newest_eq_none.mp hopen)
  have hafter : s.after cfg faults (.commitNode n) = settled cfg s n node working :=
    congrArg Prod.snd (exec_commitNode faults hs hnode hnew)
  obtain ⟨hworking, -, hstaging⟩ := newest_lookup hs hnew
  have hne : ∀ v, old = some v → v ≠ working.id := by
    rintro v hv rfl
    obtain ⟨version, hversion, hstate⟩ := hold _ hv
    cases hworking.symm.trans hversion
    exact hstate hstaging
  rw [hafter]
  refine ⟨settled_consistent hs hnode hnew, ?_, fun v hv => ?_⟩
  · rw [lookup_settled, if_pos rfl]
    exact ⟨_, working.id, rfl, rfl, fun h => hne _ h rfl⟩
  · obtain ⟨version, hversion, hstate⟩ := hold v hv
    rw [lookup_settled_version, if_neg (hne v hv), hversion]
    split_ifs
    · refine ⟨_, rfl, ?_⟩
      unfold supersededBy
      split_ifs
      · exact VersionState.noConfusion
      · exact hstate
    · exact ⟨version, rfl, hstate⟩

theorem Overtaken.run {old : Option Uuid} (h : Overtaken cfg n old s) (hops : ∀ op ∈ ops, op.Stages n)
    (hrefused : Refused cfg faults s ops) : Overtaken cfg n old (s.course cfg faults ops) := by
  induction ops generalizing s with
  | nil => exact h
  | cons op rest ih =>
    refine ih ?_ (fun op hop => hops op (List.mem_cons_of_mem _ hop)) hrefused.2
    obtain ⟨node, -, hnode, -⟩ := h.lookup
    by_cases hsync : op = .commitNode n ∧ s.stagingOf n ≠ []
    · obtain ⟨rfl, hopen⟩ := hsync
      exact overtaken_sync h.consistent hnode h.settled hopen
    · exact h.unmoved (unmoved_step h.consistent hnode (hops op List.mem_cons_self) hrefused.1
        fun heq => not_not.mp fun hopen => hsync ⟨heq, hopen⟩)

theorem Aside.run (h : Aside cfg n node w s) (hops : ∀ op ∈ ops, op.Stages n) (hrefused : Refused cfg faults s ops) :
    (NothingSynced cfg faults n s ops ∧ Aside cfg n node w (s.course cfg faults ops))
      ∨ (¬NothingSynced cfg faults n s ops ∧ Overtaken cfg n node.currentVersionId (s.course cfg faults ops)) := by
  induction ops generalizing s with
  | nil => exact .inl ⟨trivial, h⟩
  | cons op rest ih =>
    have hrest : ∀ op ∈ rest, op.Stages n := fun op hop => hops op (List.mem_cons_of_mem _ hop)
    obtain ⟨node', hnode', -⟩ := h.lookup
    by_cases hclosed : op = .commitNode n → s.stagingOf n = []
    · have hunmoved := unmoved_step h.consistent hnode' (hops op List.mem_cons_self) hrefused.1 hclosed
      exact (ih (h.unmoved hunmoved) hrest hrefused.2).imp (fun hdone => ⟨⟨hclosed, hdone.1⟩, hdone.2⟩)
        fun hdone => ⟨fun hall => hdone.1 hall.2, hdone.2⟩
    · refine .inr ⟨fun hall => hclosed hall.1, ?_⟩
      obtain ⟨rfl, hopen⟩ := Classical.not_imp.mp hclosed
      exact (overtaken_sync h.consistent hnode' (fun v hv => h.current hv) hopen).run hrest hrefused.2

end steps

section reads

variable {length : ℕ} {f g : ℕ → UInt8} {a b : Option (ℕ → UInt8)}

def rangeAnswer (cfg : Config) (length : ℕ) (bytes : Option (ℕ → UInt8)) (offset size : Option ℕ) :
    Except (Fault AppError) Bytes :=
  if readLen length (offset.getD 0) size = 0 then .ok []
  else match bytes with
    | none => .ok []
    | some bytes =>
      if 2 ^ 63 ≤ readParts cfg length (offset.getD 0) size * vecBytes then .error .panicked
      else .ok ((List.range' (offset.getD 0) (readLen length (offset.getD 0) size)).map bytes)

variable (faults) in
theorem readAnswer_eq (hs : Consistent cfg s) (hsize : cfg.partSize < 2 ^ 31) (hnode : s.nodes.lookup n = some node)
    (hkind : node.kind ≠ .directory) (offset size : Option ℕ) : readAnswer cfg faults n offset size s =
      rangeAnswer cfg node.length ((visibleVersion s n).map (byteOf cfg s)) offset size := by
  unfold rangeAnswer
  by_cases hzero : readLen node.length (offset.getD 0) size = 0
  · rw [if_pos hzero, readAnswer, exec_readBytes_visible faults hnode hkind, if_pos hzero]
    rfl
  rw [if_neg hzero]
  cases hv : visibleVersion s n with
  | none =>
    have hnone : newest (s.stagingOf n) = none := by
      by_contra hne
      obtain ⟨working, hworking⟩ := Option.ne_none_iff_exists'.mp hne
      rw [visibleVersion_of_newest hworking] at hv
      cases hv
    rw [visibleVersion_of_none hnone hnode] at hv
    rw [readAnswer, exec_readBytes_visible faults hnode hkind, if_neg hzero]
    unfold readVisible
    rw [exec_step_query, answer_findOpen_none hnone, hv]
    rfl
  | some v =>
    dsimp only [Option.map_some]
    split_ifs with hparts
    · rw [readAnswer, exec_readBytes_panicked hnode hkind faults hs (.inr hv) hparts]
      rfl
    · obtain ⟨committed, hread⟩ := exec_readBytes hnode hkind faults hs hsize (.inr hv) offset size (not_le.mp hparts)
      have hbytes : visibleByte cfg s n = byteOf cfg s v := funext (visibleByte_some hv)
      rw [readAnswer, hread, hbytes]
      rfl

theorem rangeAnswer_byte {p : ℕ} (hp : p < length) :
    rangeAnswer cfg length (some f) (some p) (some 1) = .ok [f p] := by
  have hlen : readLen length p (some 1) = 1 := by
    rw [readLen, Option.getD_some]
    omega
  have hparts : readParts cfg length p (some 1) = 1 := by
    rw [readParts, hlen, partsSpanned, Nat.add_sub_cancel, Nat.sub_self]
  simp only [rangeAnswer, Option.getD_some, hlen, hparts, one_ne_zero, if_false]
  rw [if_neg (by decide)]
  rfl

theorem rangeAnswer_none (offset size : Option ℕ) : rangeAnswer cfg length none offset size = .ok [] :=
  ite_self _

/-- The newest staged version shows what the file had, as far as the file's size goes. -/
def Alike (cfg : Config) (n : Uuid) (node : NodeRecord) (w t : World) : Prop :=
  ∀ working ∈ newest (t.stagingOf n), node.length = 0
    ∨ ∃ v, node.currentVersionId = some v ∧ ∀ p < node.length, byteOf cfg t working.id p = byteOf cfg w v p

end reads

end Dcfs
