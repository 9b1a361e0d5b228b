import Dcfs.Fuse.Ideal

/-!
How a mount and its server stand to a mount that sends every write at once: what is buffered, laid over
what the server has, is what the other server has.
-/

namespace Dcfs.Fuse

open Tables Sparse

def laid : Option PendingWrite → Bytes → Bytes
  | some run, bytes => overlay bytes run.offset run.data
  | none, bytes => bytes

structure Abreast (m m₀ : Mount) : Prop where
  byIno : m₀.byIno = m.byIno
  byId : m₀.byId = m.byId
  next : m₀.next = m.next
  plain : m₀.highWater = ∅
  below : ∀ {ino id}, m.byIno.lookup ino = some id → ino < m.next
  named : ∀ {ino id}, m.byIno.lookup ino = some id ↔ m.byId.lookup id = some ino

/-- `unsent` has what separates the servers, by inode. -/
structure Owed (unsent : ℕ → Option PendingWrite) (m : Mount) (s s₀ : Ideal) : Prop where
  nodes : s.nodes = s₀.nodes
  nextUuid : s.nextUuid = s₀.nextUuid
  contents : ∀ id, s₀.contents id = laid ((m.byId.lookup id).bind unsent) (s.contents id)
  held : ∀ {ino run}, unsent ino = some run → run.data ≠ []
    ∧ ∃ id entry, m.byIno.lookup ino = some id ∧ s₀.nodes.lookup id = some entry ∧ entry.kind = .file

structure Faithful (setup : Setup) (stale : Option Uuid) (s : Ideal) : Prop where
  cached : ∀ {key data}, s.cache.files.lookup key = some data → setup.hasCache = true
    ∧ (stale ≠ some key.nodeId → s.Has key.nodeId ∧ data = s.slice key.nodeId (key.index * blockSize) blockSize)

structure Sized (m : Mount) (s₀ : Ideal) : Prop where
  reached : ∀ {ino stop}, m.highWater.lookup ino = some stop → ino < m.next
    ∧ ∀ id, m.byIno.lookup ino = some id → s₀.Has id ∧ stop ≤ (s₀.contents id).length
  remembered : ∀ {ino v size}, m.seen.lookup ino = some (v, size) → ino < m.next
    ∧ ∀ id, m.byIno.lookup ino = some id → s₀.Has id
      ∧ (m.highWater.lookup ino = none → size = (s₀.contents id).length)

structure Mirrors (setup : Setup) (stale : Option Uuid) (unsent : ℕ → Option PendingWrite) (m : Mount) (s : Ideal)
    (m₀ : Mount) (s₀ : Ideal) : Prop where
  abreast : Abreast m m₀
  owed : Owed unsent m s s₀
  faithful : Faithful setup stale s
  sized : Sized m s₀

/-- Between two operations, or within one where `K` is also known of the mount. -/
def Level (setup : Setup) (K : Mount → Prop) (m : Mount) (s : Ideal) (m₀ : Mount) (s₀ : Ideal) : Prop :=
  Mirrors setup none m.pending.lookup m s m₀ s₀ ∧ K m

structure Stable (K : Mount → Prop) : Prop where
  inoFor : ∀ {m m₀} (id), Abreast m m₀ → K m → K (m.inoFor id).2
  remember : ∀ {m} (ino node), K m → K (m.remember ino node)

variable {setup : Setup} {stale : Option Uuid} {unsent : ℕ → Option PendingWrite} {m m' m₀ : Mount} {s t s₀ : Ideal}
  {ino : ℕ} {id : Uuid}

theorem lookup_bind (hino : m.byIno.lookup m.next = none) {i : ℕ} {j : Uuid} :
    (m.bind m.next id).byIno.lookup i = some j ↔ i = m.next ∧ j = id ∨ m.byIno.lookup i = some j := by
  rw [Mount.bind, lookup_insert]
  split_ifs with h
  · rw [h, hino]
    simp [eq_comm]
  · simp [h]

theorem fresh_level (setup : Setup) (rootId : Uuid) (s : Ideal) (mode : Mode) (cache : BlockCache) :
    Level setup (fun _ => True) (.fresh rootId) { s with cache := .opened mode } (.fresh rootId)
      { s with cache := cache } := by
  have hnone : ∀ {κ α : Type} [DecidableEq κ] {k : κ} {a : α}, (∅ : Table κ α).lookup k ≠ some a := by
    intro κ α _ k a h
    rw [AList.lookup_empty] at h
    cases h
  refine ⟨⟨⟨rfl, rfl, rfl, rfl, fun {ino id} h => ?_, fun {ino id} => ?_⟩, ⟨rfl, rfl, fun id => ?_, fun h => ?_⟩,
    ⟨fun h => absurd h hnone⟩, ⟨fun h => absurd h hnone, fun h => absurd h hnone⟩⟩, trivial⟩
  · exact (Mount.fresh_sane rootId).below h
  · simp only [Mount.fresh, lookup_insert, AList.lookup_empty]
    split_ifs <;> simp_all [eq_comm]
  · show s.contents id = laid (((Mount.fresh rootId).byId.lookup id).bind fun i =>
      (∅ : Table ℕ PendingWrite).lookup i) _
    cases (Mount.fresh rootId).byId.lookup id <;> rfl
  · exact absurd h hnone

theorem Abreast.next_free (h : Abreast m m₀) : m.byIno.lookup m.next = none := by
  cases hb : m.byIno.lookup m.next with
  | none => rfl
  | some id => exact absurd (h.below hb) (lt_irrefl _)

theorem inoFor_pending (m : Mount) (id : Uuid) : (m.inoFor id).2.pending = m.pending := by
  unfold Mount.inoFor
  split <;> rfl

namespace Stable

variable {K : Mount → Prop}

theorem pending (P : Table ℕ PendingWrite → Prop) : Stable fun m => P m.pending :=
  ⟨fun id _ h => (inoFor_pending _ id).symm ▸ h, fun _ _ h => h⟩

theorem bound (h : Stable K) (ino : ℕ) (id : Uuid) : Stable fun m => K m ∧ m.byIno.lookup ino = some id := by
  refine ⟨fun {m m₀} id' ha hm => ⟨h.inoFor id' ha hm.1, ?_⟩, fun i node hm => ⟨h.remember i node hm.1, hm.2⟩⟩
  unfold Mount.inoFor
  split
  · exact hm.2
  · exact (lookup_bind ha.next_free).mpr (.inr hm.2)

end Stable

namespace Owed

theorem contents_eq (h : Owed unsent m s s₀) (hnone : ∀ ino, m.byId.lookup id = some ino → unsent ino = none) :
    s₀.contents id = s.contents id := by
  rw [h.contents]
  cases hid : m.byId.lookup id with
  | none => rfl
  | some ino => rw [Option.bind_some, hnone ino hid, laid]

end Owed

theorem Abreast.inoFor (h : Abreast m m₀) (id : Uuid) : (m₀.inoFor id).1 = (m.inoFor id).1
    ∧ (m.inoFor id).2.byIno.lookup (m.inoFor id).1 = some id ∧ Abreast (m.inoFor id).2 (m₀.inoFor id).2 := by
  unfold Mount.inoFor
  rw [h.byId]
  cases hid : m.byId.lookup id with
  | some ino => exact ⟨rfl, h.named.mpr hid, h⟩
  | none =>
    refine ⟨h.next, (lookup_bind h.next_free).mpr (.inl ⟨rfl, rfl⟩), ?_, ?_, ?_, h.plain, fun {i j} hb => ?_,
      fun {i j} => ?_⟩
    · simp only [Mount.bind, h.byIno, h.next]
    · simp only [Mount.bind, h.byId, h.next]
    · exact congrArg (· + 1) h.next
    · rcases (lookup_bind h.next_free).mp hb with ⟨rfl, -⟩ | hold
      · exact Nat.lt_succ_self _
      · exact (h.below hold).trans (Nat.lt_succ_self _)
    · refine (lookup_bind h.next_free).trans ?_
      simp only [Mount.bind, lookup_insert]
      split_ifs with hj
      · subst hj
        have hold : m.byIno.lookup i ≠ some j := by
          rw [Ne, h.named, hid]
          exact fun hc => by cases hc
        rw [or_iff_left hold]
        simp [eq_comm]
      · simp [hj, h.named]

theorem Owed.inoFor (h : Owed unsent m s s₀) (ha : Abreast m m₀) (id : Uuid) : Owed unsent (m.inoFor id).2 s s₀ := by
  unfold Mount.inoFor
  cases hid : m.byId.lookup id with
  | some ino => exact h
  | none =>
    have hnext : unsent m.next = none := by
      cases hrun : unsent m.next with
      | none => rfl
      | some run =>
        obtain ⟨-, id', -, hb, -⟩ := h.held hrun
        exact absurd (ha.below hb) (lt_irrefl _)
    refine ⟨h.nodes, h.nextUuid, fun j => ?_, fun hrun => ?_⟩
    · rw [h.contents]
      simp only [Mount.bind, lookup_insert]
      split_ifs with hj
      · rw [hj, hid, Option.bind_some, hnext]
        rfl
      · rfl
    · obtain ⟨hdata, id', entry, hb, hentry⟩ := h.held hrun
      exact ⟨hdata, id', entry, (lookup_bind ha.next_free).mpr (.inr hb), hentry⟩

theorem Sized.inoFor (h : Sized m s₀) (ha : Abreast m m₀) (id : Uuid) : Sized (m.inoFor id).2 s₀ := by
  unfold Mount.inoFor
  cases hid : m.byId.lookup id with
  | some ino => exact h
  | none =>
    have hold : ∀ {i j}, i < m.next → (m.bind m.next id).byIno.lookup i = some j → m.byIno.lookup i = some j :=
      fun hi hb => ((lookup_bind ha.next_free).mp hb).resolve_left fun hc => hi.ne hc.1
    refine ⟨fun hw => ?_, fun hs => ?_⟩
    · obtain ⟨hlt, hlen⟩ := h.reached hw
      exact ⟨hlt.trans (Nat.lt_succ_self _), fun j hb => hlen j (hold hlt hb)⟩
    · obtain ⟨hlt, hlen⟩ := h.remembered hs
      exact ⟨hlt.trans (Nat.lt_succ_self _), fun j hb => hlen j (hold hlt hb)⟩

theorem Sized.remember (h : Sized m s₀) (ha : Abreast m m₀) (hb : m.byIno.lookup ino = some id) (hhas : s₀.Has id)
    {node : NodeResponse} (hsize : node.size = (s₀.contents id).length) : Sized (m.remember ino node) s₀ := by
  refine ⟨h.reached, fun {i v size} hs => ?_⟩
  simp only [Mount.remember, lookup_insert] at hs
  split_ifs at hs with hi
  · cases hs
    rw [hi]
    refine ⟨ha.below hb, fun j hj => ?_⟩
    cases hb.symm.trans hj
    exact ⟨hhas, fun _ => hsize⟩
  · exact h.remembered hs

end Dcfs.Fuse
