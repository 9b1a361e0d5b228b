import Dcfs.Fuse.BlockCache
import Dcfs.Fuse.Session
import Dcfs.Library.Sparse

/-! A file that other mounts write and sync while this one reads it through its cache. -/

namespace Dcfs.Fuse

open Effects Tables Sparse

structure Remote where
  versions : Table Uuid Bytes
  current : Table Uuid Uuid
  working : Table Uuid Bytes
  known : ∀ {nodeId v}, current.lookup nodeId = some v → (versions.lookup v).isSome = true

namespace Remote

variable (server : Remote)

def committed (nodeId : Uuid) : Bytes := ((server.current.lookup nodeId).bind server.versions.lookup).getD []

def visible (nodeId : Uuid) : Bytes := (server.working.lookup nodeId).getD (server.committed nodeId)

def read (nodeId : Uuid) (offset size : ℕ) : Bytes × Bool :=
  (((server.visible nodeId).drop offset).take size, (server.working.lookup nodeId).isNone)

def write (nodeId : Uuid) (offset : ℕ) (data : Bytes) : Remote :=
  { server with working := server.working.insert nodeId (overlay (server.visible nodeId) offset data) }

def sync (nodeId v : Uuid) : Remote :=
  match server.working.lookup nodeId with
  | none => server
  | some bytes =>
    { versions := server.versions.insert v bytes
      current := server.current.insert nodeId v
      working := server.working.erase nodeId
      known := by
        intro id v' h
        rw [lookup_insert] at h ⊢
        by_cases hv : v' = v
        · rw [if_pos hv]
          rfl
        · rw [if_neg hv]
          split_ifs at h
          · exact absurd (Option.some.inj h).symm hv
          · exact server.known h }

inductive Step : Remote → Remote → Prop
  | write (server : Remote) (nodeId : Uuid) (offset : ℕ) (data : Bytes) : Step server (server.write nodeId offset data)
  | sync (server : Remote) (nodeId : Uuid) {v : Uuid} (fresh : server.versions.lookup v = none) :
      Step server (server.sync nodeId v)

def Reports (node : NodeResponse) : Prop :=
  node.currentVersionId = server.current.lookup node.id ∧ node.size = (server.visible node.id).length

def IsBlock (key : Key) (data : Bytes) : Prop := ∃ content, server.versions.lookup key.versionId = some content
  ∧ data = (content.drop (key.index * blockSize)).take blockSize

variable {server}

theorem Step.isBlock {server' : Remote} (h : Step server server') {key : Key} {data : Bytes}
    (hblock : server.IsBlock key data) : server'.IsBlock key data := by
  obtain ⟨content, hv, hdata⟩ := hblock
  refine ⟨content, ?_, hdata⟩
  cases h with
  | write nodeId offset data => exact hv
  | sync nodeId fresh =>
    unfold Remote.sync
    split
    · exact hv
    · have hne : key.versionId ≠ _ := fun heq => Option.some_ne_none _ (hv.symm.trans (heq ▸ fresh))
      rw [lookup_insert, if_neg hne, hv]

theorem isBlock_read {nodeId v : Uuid} (index : ℕ) (hcurrent : server.current.lookup nodeId = some v)
    (hclosed : server.working.lookup nodeId = none) :
    server.IsBlock ⟨nodeId, v, index⟩ (server.read nodeId (index * blockSize) blockSize).1 := by
  obtain ⟨content, hcontent⟩ := Option.isSome_iff_exists.mp (server.known hcurrent)
  refine ⟨content, hcontent, ?_⟩
  rw [read, visible, hclosed, Option.getD_none, committed, hcurrent, Option.bind_some, hcontent, Option.getD_some]

end Remote

/-- `asked` is the file and the version of the read in progress, `served` what reads were given as blocks of a
version. -/
structure Shared where
  server : Remote
  cache : BlockCache
  asked : Option (Uuid × Uuid)
  served : List (Key × Bytes)

namespace Shared

variable (s : Shared)

def loaded (key : Key) : Shared :=
  { s with
    cache := (s.cache.load key).2
    asked := some (key.nodeId, key.versionId)
    served := ((s.cache.load key).1.map fun data => (key, data)).toList ++ s.served }

def fetched (nodeId : Uuid) (offset size : ℕ) : Shared :=
  match s.asked, s.server.read nodeId offset size with
  | some (_, v), (data, true) => { s with served := (⟨nodeId, v, offset / blockSize⟩, data) :: s.served }
  | _, _ => s

theorem fetched_server (nodeId : Uuid) (offset size : ℕ) : (s.fetched nodeId offset size).server = s.server := by
  unfold fetched
  split <;> rfl

theorem fetched_asked (nodeId : Uuid) (offset size : ℕ) : (s.fetched nodeId offset size).asked = s.asked := by
  unfold fetched
  split <;> rfl

def Answers (allowed : Shared → Uuid → Prop) : (c : ClientCall) → c.Reply → Shared → Prop
  | .getNode nodeId, r, t => t = s ∧ ∀ node, r = .ok node → node.id = nodeId ∧ s.server.Reports node
  | .findChild _ _, r, t => t = s ∧ ∀ node, r = .ok node → s.server.Reports node
  | .listChildren _ _ _, r, t => t = s ∧ ∀ nodes, r = .ok nodes → ∀ node ∈ nodes, s.server.Reports node
  | .readFile nodeId offset size, r, t => t = s ∧ ∀ bytes, r = .ok bytes → bytes = (s.server.read nodeId offset size).1
  | .readFileCacheable _ _ _, .error _, t => t = s
  | .readFileCacheable nodeId offset size, .ok answer, t =>
    allowed s nodeId ∧ answer = s.server.read nodeId offset size ∧ t = s.fetched nodeId offset size
  | .writeFile nodeId offset data, .ok _, t => t = { s with server := s.server.write nodeId offset data }
  | .loadBlock key, r, t => r = (s.cache.load key).1 ∧ t = s.loaded key
  | .storeBlock key data, _, t => t = { s with cache := s.cache.store key data } ∨ t = s
  | .invalidateBlocks nodeId, _, t => t = { s with cache := s.cache.invalidate nodeId }
  | _, _, t => t = s

end Shared

/-- Before each call the other mounts have made any number of requests. -/
def sharing (allowed : Shared → Uuid → Prop) : Rules Client Shared where
  admits _ _ := True
  outcome c s r t := ∃ server, Relation.ReflTransGen Remote.Step s.server server
    ∧ { s with server := server }.Answers allowed c r t

def Op.isLook : Op → Bool
  | .read _ _ _ => true
  | .getattr _ => true
  | .lookup _ _ => true
  | .readdir _ => true
  | _ => false

inductive Reading (setup : Setup) (allowed : Shared → Uuid → Prop) : Mount → Shared → Prop
  | start (rootId : Uuid) (server : Remote) (mode : Mode) :
      Reading setup allowed (.fresh rootId) ⟨server, .opened mode, none, []⟩
  | step {m m' : Mount} {s t : Shared} {op : Op} {out : Served Result} :
      Reading setup allowed m s → op.isLook = true → Program.Ends (sharing allowed) (op.run setup m) s (out, m') t →
      Reading setup allowed m' t

/-- If a fetch is answered from a version, it is the version by which the read goes. -/
def AsCurrent (s : Shared) (nodeId : Uuid) : Prop :=
  ∀ v, s.asked = some (nodeId, v) → s.server.working.lookup nodeId = none → s.server.current.lookup nodeId = some v

end Dcfs.Fuse
