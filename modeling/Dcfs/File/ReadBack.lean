import Dcfs.File.Collected
import Dcfs.File.Recorded

namespace Dcfs

open Machine Tables World Request Exec Sparse

variable {cfg : Config} {faults : Faults} {w u t : World} {n v : Uuid} {node : NodeRecord}
  {version : FileVersionRecord} {uploads : List (UploadChunkRequest × Bytes)}

def Takes (cfg : Config) (req : UploadChunkRequest) (body : Bytes) : Prop :=
  req.plaintextSize = body.length ∧ body.length ≤ cfg.partSize ∧ HashAgrees cfg req body

instance (cfg : Config) (req : UploadChunkRequest) (body : Bytes) : Decidable (Takes cfg req body) :=
  inferInstanceAs (Decidable (_ ∧ _))

section run

end run

section manifest

variable {rows : List FileChunkRecord} {index start total : ℕ}

end manifest

section commit

variable {req : CommitVersionRequest} {response : CommitVersionResponse}

section read

variable (hnode : t.nodes.lookup n = some node) (hkind : node.kind ≠ .directory)
  (hv : t.versions.lookup v = some version) (hvn : version.nodeId = n)
  (honly : ∀ other ∈ t.stagingOf n, other.id = v) {chunks : List Bytes}
  (hchunks : chunks = (t.rowsOf v).map (plaintextOf cfg t)) (hlong : chunks.flatten.length < 2 ^ 63)
  (hmany : chunks.length * vecBytes < 2 ^ 63)

include hnode hkind hv hvn honly hchunks hlong hmany

end read

end commit

end Dcfs
