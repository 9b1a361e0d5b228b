import Dcfs.File.Recorded

namespace Dcfs

open Machine Machine.Calc Tables World Request Exec

inductive Outcome
  | panicked
  | rejected (e : AppError)
  | done (w : World)

inductive ByteCall
  | readBytes (nodeId : Uuid) (offset size : Option ℕ)
  | writeBytes (nodeId : Uuid) (offset : ℕ) (body : Bytes)
  | uploadChunk (versionId : Uuid) (req : UploadChunkRequest) (body : Bytes)
  | commitVersion (versionId : Uuid) (req : CommitVersionRequest)

structure ReadSpan where
  fileSize : ℕ
  partSize : ℕ
  offset : ℕ
  size : ℕ

def readSpan (w : World) (n : Uuid) (offset size : Option ℕ) : Option ReadSpan :=
  (w.nodes.lookup n).bind fun node =>
    let start := offset.getD 0
    let wanted := min (size.getD (node.length - start)) (node.length - start)
    if node.kind = .directory ∨ node.length ≤ start ∨ wanted = 0 then none
    else ((visibleVersion w n).bind w.versions.lookup).map fun version =>
      ⟨node.length, version.partSize, start, wanted⟩

def openCalc (cfg : Config) (w : World) (n : Uuid) (node : NodeRecord) : Calc ℕ :=
  match newest (w.stagingOf n) with
  | some version => pure version.partSize
  | none =>
    match node.currentVersionId.bind w.versions.lookup with
    | some base => do
      let _ ← toI64 (divCeil node.length base.partSize)
      pure base.partSize
    | none => do
      let chunkSize ← toI64 cfg.chunkSize
      pure (max chunkSize 1).toNat

def Unversioned (w : World) (n : Uuid) (node : NodeRecord) : Prop :=
  newest (w.stagingOf n) = none ∧ node.currentVersionId = none

def exactPlan (cfg : Config) (w : World) (n : Uuid) (node : NodeRecord) (offset len : ℕ) : WritePlan where
  partSize := (max (openedChunkSize w n node cfg.chunkSize) 1).toNat
  offset := offset
  stop := offset + len
  oldSize := node.length

def manifestSizes (w : World) (v : Uuid) : List ℕ := (w.rowsOf v).map fun row => row.plaintextSize.toNat

namespace ByteCall

variable (cfg : Config) (faults : Faults) (memory : ℕ → Prop)

def Typed : ByteCall → Prop
  | .readBytes _ offset size => (∀ o ∈ offset, o < 2 ^ 64) ∧ ∀ s ∈ size, s < 2 ^ 64
  | .writeBytes _ offset body => offset < 2 ^ 64 ∧ body.length ≤ maxWriteBytes
  | .uploadChunk _ req body => req.chunkIndex < 2 ^ 64 ∧ req.plaintextSize < 2 ^ 64 ∧ body.length ≤ maxWriteBytes
  | .commitVersion _ req => req.totalSize < 2 ^ 64 ∧ req.expectedGeneration < 2 ^ 64

def request : ByteCall → ReadRequest Unit
  | .readBytes n offset size => do let _ ← Dcfs.readBytes cfg n offset size
  | .writeBytes n offset body => do let _ ← Dcfs.writeBytes cfg n offset body
  | .uploadChunk v req body => do let _ ← Dcfs.uploadChunk cfg v req body
  | .commitVersion v req => do let _ ← Dcfs.commitVersion v req

def numbers (w : World) : ByteCall → Calc Unit
  | .readBytes n offset size =>
    match readSpan w n offset size with
    | some s => readCalc s.fileSize s.partSize s.offset s.size
    | none => pure ()
  | .writeBytes n offset body =>
    match w.nodes.lookup n with
    | some node =>
      if node.kind = .directory ∨ body = [] then pure ()
      else do
        let partSize ← openCalc cfg w n node
        writeCalc partSize node.length offset body.length
    | none => pure ()
  | .uploadChunk v req body =>
    match w.versions.lookup v with
    | some version => uploadCalc version.partSize req.chunkIndex body.length
    | none => pure ()
  | .commitVersion v req => commitCalc (manifestSizes w v) req

def run (w : World) (call : ByteCall) : Outcome :=
  match exec cfg faults (call.request cfg) w with
  | (.ok _, u) => .done u
  | (.error (.error e), _) => .rejected e
  | (.error .panicked, _) => .panicked

def Recorded (w u : World) : ByteCall → Prop
  | .readBytes _ _ _ => True
  | .writeBytes n offset body => ∀ node ∈ w.nodes.lookup n, body ≠ [] →
    WriteRecord (exactPlan cfg w n node offset body.length) (openedChunkSize w n node cfg.chunkSize) n (openedId w n) u
  | .uploadChunk v req body => ∀ version ∈ w.versions.lookup v, ∃ row, rowAt (u.rowsOf v) req.chunkIndex = some row
    ∧ row.logicalOffset = ↑(req.chunkIndex * version.partSize) ∧ row.plaintextSize = body.length
  | .commitVersion v _ => ∃ version node, u.versions.lookup v = some version ∧ version.size = (manifestSizes w v).sum
    ∧ u.nodes.lookup version.nodeId = some node ∧ node.size = (manifestSizes w v).sum

/-- The call does not panic, and it is rejected or has the memory it needs and all its numbers are exact. -/
def Sound (w : World) (call : ByteCall) : Prop :=
  match call.run cfg faults w with
  | .panicked => False
  | .rejected _ => True
  | .done u => (call.numbers cfg w).Fits ∧ (call.numbers cfg w).Granted memory ∧ call.Recorded cfg w u

/-- The call, unless it is refused, and the state before it keep to the widths of the columns. -/
def Safe (w : World) : ByteCall → Prop
  | .readBytes n offset size => ∀ s ∈ readSpan w n offset size,
    partsSpanned s.partSize s.offset s.size * vecBytes < 2 ^ 63
  | .writeBytes n offset body => ∀ node ∈ w.nodes.lookup n, node.kind ≠ .directory → body ≠ [] →
    (Unversioned w n node → cfg.chunkSize < 2 ^ 63) ∧ offset + body.length < 2 ^ 63
      ∧ ∀ i ∈ (exactPlan cfg w n node offset body.length).touched,
        (exactPlan cfg w n node offset body.length).chunkLen i < 2 ^ 31
  | .uploadChunk v req body => ∀ version ∈ w.versions.lookup v, Accepts cfg version req body →
    req.chunkIndex * version.partSize < 2 ^ 63
  | .commitVersion v req => ∀ version node, Commits cfg w v req version node →
    (manifestSizes w v).sum < 2 ^ 64 ∧ req.totalSize < 2 ^ 63 ∧ req.expectedGeneration < 2 ^ 63

end ByteCall

variable {cfg : Config} {faults : Faults} {w u : World} {n v : Uuid} {node : NodeRecord}

theorem partSize_lt (cfg : Config) : cfg.partSize < 2 ^ 63 := by
  have h := (inI64_asI64 (cfg.chunkSize : ℤ)).2
  rw [Config.partSize]
  omega

theorem partSize_of_lt (h : cfg.chunkSize < 2 ^ 63) : cfg.partSize = (max (cfg.chunkSize : ℤ) 1).toNat := by
  rw [Config.partSize, asI64_of_lt h]

theorem openedChunkSize_of_lt (h : Unversioned w n node → cfg.chunkSize < 2 ^ 63) (hw : Consistent cfg w)
    (hnode : w.nodes.lookup n = some node) :
    openedChunkSize w n node (asI64 cfg.chunkSize) = openedChunkSize w n node cfg.chunkSize := by
  unfold openedChunkSize
  cases hnew : newest (w.stagingOf n) with
  | some version => rfl
  | none =>
    cases hcur : node.currentVersionId with
    | none =>
      dsimp only [Option.bind_none]
      exact asI64_of_lt (h ⟨hnew, hcur⟩)
    | some base =>
      obtain ⟨current, hcurrent, -, -⟩ := hw.current hnode hcur
      rw [Option.bind_some, hcurrent]

theorem openedPart (hw : Consistent cfg w) (hnode : w.nodes.lookup n = some node) :
    (max (openedChunkSize w n node (asI64 cfg.chunkSize)) 1).toNat = cfg.partSize := by
  unfold openedChunkSize
  cases hnew : newest (w.stagingOf n) with
  | some version => exact (hw.version (newest_lookup hw hnew).1).part_size
  | none =>
    cases hcur : node.currentVersionId with
    | none => rfl
    | some base =>
      obtain ⟨current, hcurrent, -, -⟩ := hw.current hnode hcur
      rw [Option.bind_some, hcurrent]
      dsimp only
      rw [max_eq_left (le_max_right _ _)]
      exact (hw.version hcurrent).part_size

theorem exactPlan_eq (hw : Consistent cfg w) (hnode : w.nodes.lookup n = some node)
    (h : Unversioned w n node → cfg.chunkSize < 2 ^ 63) (offset len : ℕ) :
    exactPlan cfg w n node offset len
      = { partSize := cfg.partSize, offset := offset, stop := offset + len, oldSize := node.length } := by
  rw [exactPlan, ← openedChunkSize_of_lt h hw hnode, openedPart hw hnode]

theorem openCalc_fits (hw : Consistent cfg w) (hnode : w.nodes.lookup n = some node) {f : ℕ → Calc Unit} :
    (openCalc cfg w n node >>= f).Fits ↔ (Unversioned w n node → cfg.chunkSize < 2 ^ 63) ∧ (f cfg.partSize).Fits := by
  unfold openCalc Unversioned
  cases hnew : newest (w.stagingOf n) with
  | some version =>
    dsimp only
    rw [pure_bind_fits, (hw.version (newest_lookup hw hnew).1).part_size]
    simp
  | none =>
    cases hcur : node.currentVersionId with
    | none =>
      dsimp only [Option.bind_none]
      rw [Calc.bind_assoc, toI64_fits]
      simp only [and_self, forall_const]
      refine and_congr_right fun hlt => ?_
      rw [pure_bind_fits, partSize_of_lt hlt]
    | some base =>
      obtain ⟨current, hcurrent, -, -⟩ := hw.current hnode hcur
      have hcount : divCeil node.length cfg.partSize < 2 ^ 63 :=
        (divCeil_le cfg.partSize_pos).trans_lt (length_lt hw hnode)
      rw [Option.bind_some, hcurrent]
      dsimp only
      rw [Calc.bind_assoc, toI64_fits, pure_bind_fits, (hw.version hcurrent).part_size, and_iff_right hcount]
      simp

end Dcfs
