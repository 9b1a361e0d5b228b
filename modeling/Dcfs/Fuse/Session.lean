import Dcfs.Fuse.Numbers

namespace Dcfs.Fuse

open Effects Fs Tables

inductive Op
  | write (ino offset : ℕ) (data : Bytes)
  | read (ino offset size : ℕ)
  | getattr (ino : ℕ)
  | lookup (parentIno : ℕ) (name : Bytes)
  | readdir (ino : ℕ)
  | setattr (ino : ℕ) (req : PatchNodeRequest)
  | flush (ino : ℕ)
  | fsync (ino : ℕ)
  | create (parentIno : ℕ) (name : Bytes) (kind : NodeKind) (mode uid gid : ℕ)
  | remove (parentIno : ℕ) (name : Bytes)
  | rename (parentIno : ℕ) (name : Bytes) (newParentIno : ℕ) (newName : Bytes)

inductive Result
  | count (n : ℕ)
  | bytes (data : Bytes)
  | attr (attr : Attr)
  | entries (entries : List DirEntry)
  | done
  deriving DecidableEq

def Op.run (setup : Setup) : Op → Fs Result
  | .write ino offset data => do pure (.count (← Fuse.write setup ino offset data))
  | .read ino offset size => do pure (.bytes (← Fuse.read setup ino offset size))
  | .getattr ino => do pure (.attr (← Fuse.getattr setup ino))
  | .lookup parentIno name => do pure (.attr (← Fuse.lookup setup parentIno name))
  | .readdir ino => do pure (.entries (← Fuse.readdir setup ino))
  | .setattr ino req => do pure (.attr (← Fuse.setattr setup ino req))
  | .flush ino => do
    Fuse.flush setup ino
    pure .done
  | .fsync ino => do
    Fuse.fsync setup ino
    pure .done
  | .create parentIno name kind mode uid gid => do
    pure (.attr (← Fuse.create parentIno name kind mode uid gid))
  | .remove parentIno name => do
    Fuse.remove setup parentIno name
    pure .done
  | .rename parentIno name newParentIno newName => do
    Fuse.rename setup parentIno name newParentIno newName
    pure .done

structure Mount.Sane (m : Mount) : Prop extends m.Matched where
  held : ∀ {ino run}, m.pending.lookup ino = some run → ∃ id, m.byIno.lookup ino = some id

structure Mount.Later (m m' : Mount) : Prop where
  sane : m'.Sane
  pending : m'.pending = m.pending
  bound : ∀ {ino id}, m.byIno.lookup ino = some id → m'.byIno.lookup ino = some id

namespace Mount

variable {m m' m'' : Mount}

theorem fresh_sane (rootId : Uuid) : (Mount.fresh rootId).Sane where
  toMatched := fresh_matched rootId
  held {ino run} h := by
    rw [Mount.fresh, AList.lookup_empty] at h
    cases h

theorem Later.refl (h : m.Sane) : m.Later m := ⟨h, rfl, fun hb => hb⟩

theorem Later.trans (h : m.Later m') (h' : m'.Later m'') : m.Later m'' :=
  ⟨h'.sane, h'.pending.trans h.pending, fun hb => h'.bound (h.bound hb)⟩

theorem Sane.later_of (h : m.Sane) (hsame : m.SameNumbers m') (hpending : m'.pending = m.pending) : m.Later m' where
  sane := by
    refine ⟨hsame.matched h.toMatched, fun hp => ?_⟩
    rw [hsame.byIno]
    exact h.held (hpending ▸ hp)
  pending := hpending
  bound hb := hsame.byIno ▸ hb

theorem inoFor_pending (m : Mount) (id : Uuid) : (m.inoFor id).2.pending = m.pending := by
  unfold Mount.inoFor
  split <;> rfl

theorem Sane.inoFor (h : m.Sane) (id : Uuid) : m.Later (m.inoFor id).2 := by
  obtain ⟨⟨hmatched, hbound⟩, -⟩ := h.toMatched.inoFor id
  refine ⟨⟨hmatched, fun hp => ?_⟩, inoFor_pending m id, hbound⟩
  obtain ⟨id', hid'⟩ := h.held (inoFor_pending m id ▸ hp)
  exact ⟨id', hbound hid'⟩

theorem Sane.dropPending (h : m.Sane) (ino : ℕ) : (m.dropPending ino).Sane :=
  ⟨⟨h.pairs, h.below⟩, fun {i run} hp => by
    rw [Mount.dropPending, lookup_erase] at hp
    split_ifs at hp
    exact h.held hp⟩

theorem Sane.setPending (h : m.Sane) {ino : ℕ} {id : Uuid} (hid : m.byIno.lookup ino = some id)
    (run : PendingWrite) : (m.setPending ino run).Sane :=
  ⟨⟨h.pairs, h.below⟩, fun {i run'} hp => by
    rw [Mount.setPending, lookup_insert] at hp
    split_ifs at hp with hi
    · exact ⟨id, hi ▸ hid⟩
    · exact h.held hp⟩

theorem Sane.unbind (h : m.Sane) {ino : ℕ} {id : Uuid} (hid : m.byIno.lookup ino = some id)
    (hp : m.pending.lookup ino = none) :
    (m.unbind ino id).Sane := by
  refine ⟨h.toMatched.unbind hid, fun {ino' run} hrun => ?_⟩
  obtain ⟨id', hb⟩ := h.held hrun
  have hne : ino' ≠ ino := by
    rintro rfl
    exact Option.some_ne_none _ (hrun.symm.trans hp)
  refine ⟨id', ?_⟩
  rw [Mount.unbind, lookup_erase, if_neg hne]
  exact hb

theorem mem_drain {setup : Setup} {ino : ℕ} {run : PendingWrite} :
    (ino, run) ∈ m.drain setup ↔ m.pending.lookup ino = some run := by
  simp only [Mount.drain, List.mem_filterMap, Option.map_eq_some_iff, Prod.mk.injEq]
  constructor
  · rintro ⟨i, -, r, hr, rfl, rfl⟩
    exact hr
  · intro hrun
    refine ⟨ino, (setup.drained_perm _).mem_iff.mpr ?_, run, hrun, rfl, rfl⟩
    exact List.mem_map.mpr ⟨⟨ino, run⟩, lookup_eq_some_iff.mp hrun, rfl⟩

theorem drain_nodup (m : Mount) {setup : Setup} : ((m.drain setup).map Prod.fst).Nodup := by
  have hkeys : (setup.drained (m.pending.entries.map Sigma.fst)).Nodup :=
    (setup.drained_perm _).nodup_iff.mpr m.pending.nodupKeys
  refine List.Sublist.nodup ?_ hkeys
  rw [Mount.drain, List.map_filterMap]
  generalize setup.drained (m.pending.entries.map Sigma.fst) = inos
  induction inos with
  | nil => exact .slnil
  | cons ino rest ih =>
    rw [List.filterMap_cons]
    cases m.pending.lookup ino with
    | none => exact .cons _ ih
    | some run => exact .cons_cons _ ih

end Mount

end Dcfs.Fuse
