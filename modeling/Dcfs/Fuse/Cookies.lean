import Dcfs.Fuse.Directory
import Dcfs.Fuse.Fsync
import Dcfs.Library.Cursor

namespace Dcfs.Fuse

open Effects Routine Cursor

structure DirRead where
  before : Mount × World
  room : Room
  reply : ReplyDirectory
  after : Mount × World

section

variable (cfg : Config) (setup : Setup) (ino : ℕ) (id : Uuid)

def DirRead.Answers (offset : ℕ) (r : DirRead) : Prop :=
  r.before.1.byIno.lookup ino = some id
    ∧ Ends (directories cfg) (readdirReply setup ino offset r.room) r.before.1 r.before.2
      (.ok r.reply) r.after.1 r.after.2

def DirRead.entries (r : DirRead) : List DirEntry := listing cfg r.after.2 r.after.1 ino id

/-- From a cookie on until a reply is empty. Between the calls the server and the mount may change at will. -/
inductive Reads : ℕ → List DirRead → Prop
  | last {offset : ℕ} {r : DirRead} : r.Answers cfg setup ino id offset → r.reply.entries = [] → Reads offset [r]
  | more {offset : ℕ} {r : DirRead} {rest : List DirRead} : r.Answers cfg setup ino id offset →
      Reads (r.reply.resume offset) rest → Reads offset (r :: rest)

def DirRead.piece (r : DirRead) : Piece DirEntry := ⟨r.entries cfg ino id, r.reply.entries.length⟩

end

def returned (readings : List DirRead) : List DirEntry := readings.flatMap fun r => r.reply.shown

variable {cfg : Config} {setup : Setup} {ino offset : ℕ} {id : Uuid} {r : DirRead} {readings : List DirRead}

theorem DirRead.Answers.reply_eq (h : r.Answers cfg setup ino id offset) :
    r.reply = .reply (r.entries cfg ino id) offset r.room :=
  (readdirReply_meets h.1 offset r.room).ends h.2 _ rfl

theorem DirRead.Answers.got (h : r.Answers cfg setup ino id offset) :
    (r.piece cfg ino id).got offset = r.reply.shown := by
  rw [Piece.got, DirRead.piece, h.reply_eq]
  exact (ReplyDirectory.reply_shown ..).symm

theorem DirRead.Answers.next (h : r.Answers cfg setup ino id offset) :
    (r.piece cfg ino id).next offset = r.reply.resume offset := by
  rw [Piece.next, h.got, ReplyDirectory.shown, List.length_map, h.reply_eq]
  exact (ReplyDirectory.reply_resume ..).symm

theorem Reads.got (h : Reads cfg setup ino id offset readings) :
    got offset (readings.map (DirRead.piece cfg ino id)) = returned readings := by
  induction h with
  | last hr _ =>
    rw [List.map_singleton, Cursor.got, Cursor.got, hr.got, returned, List.flatMap_singleton, List.append_nil]
  | more hr _ ih =>
    rw [List.map_cons, Cursor.got, hr.got, hr.next, ih]
    rfl

theorem Reads.complete (h : Reads cfg setup ino id offset readings)
    (hroom : ∀ r ∈ readings, ∀ entry ∈ r.entries cfg ino id, r.room.Takes entry) :
    Complete offset (readings.map (DirRead.piece cfg ino id)) := by
  induction h with
  | @last offset r hr hnone =>
    have hend := ReplyDirectory.reply_none _ offset _ (hroom r List.mem_cons_self) (hr.reply_eq ▸ hnone)
    exact hend.trans (Nat.le_add_right _ _)
  | @more offset r rest hr hrest ih =>
    have hcomplete := ih fun r hr => hroom r (List.mem_cons_of_mem _ hr)
    cases hrest with
    | last hlast _ =>
      rw [← hr.next] at hcomplete
      exact hcomplete
    | more hlast _ =>
      rw [← hr.next] at hcomplete
      exact hcomplete

def changesOf (cfg : Config) (ino : ℕ) (id : Uuid) (readings : List DirRead) : List (Change DirEntry) :=
  changes 0 (readings.map (DirRead.piece cfg ino id))

def Stays (cfg : Config) (ino : ℕ) (id : Uuid) (readings : List DirRead) (entry : DirEntry) : Prop :=
  ∀ r ∈ readings, (r.entries cfg ino id).count entry = 1

/--
If no change between two calls moves an entry that stays across the cookie, every such entry is returned
exactly once. In general an entry is returned once just if it is moved ahead of the cookie as often as
it is moved behind it.
-/
theorem listing_returns_once_iff (h : Reads cfg setup ino id 0 readings)
    (hroom : ∀ r ∈ readings, ∀ entry ∈ r.entries cfg ino id, r.room.Takes entry) :
    ((∀ c ∈ changesOf cfg ino id readings, c.Steady) →
      ∀ entry, Stays cfg ino id readings entry → (returned readings).count entry = 1)
    ∧ ∀ entry, Stays cfg ino id readings entry → ((returned readings).count entry = 1
      ↔ (changesOf cfg ino id readings).countP (·.pushes entry)
        = (changesOf cfg ino id readings).countP (·.pulls entry)) := by
  have hstays : ∀ {entry}, Stays cfg ino id readings entry →
      ∀ piece ∈ readings.map (DirRead.piece cfg ino id), piece.items.count entry = 1 := by
    intro entry hentry piece hpiece
    obtain ⟨r, hr, rfl⟩ := List.mem_map.mp hpiece
    exact hentry r hr
  rw [← h.got]
  constructor
  · intro hsteady entry hentry
    exact got_once (hstays hentry) (h.complete hroom) hsteady
  · intro entry hentry
    exact got_once_iff (hstays hentry) (h.complete hroom)

section sample

def lettered (letters : List ℕ) : World :=
  (World.fresh 0).trace (sample .postgres) (letters.map fun n =>
    .createNode ⟨0, [.ofNat (97 + n)], .file, 0o644, 0, 0, none, n + 1⟩)

def unlettered : World := (lettered [0, 1, 2]).after (sample .postgres) noFaults (.deleteNode 1)

def visitor : Mount := [1, 2, 3].foldl (fun m id => (m.inoFor id).2) (Mount.fresh 0)

def threeAtOnce : Room := fun shown _ => shown.length < 3

def visit (w : World) (offset : ℕ) : DirRead :=
  ⟨(visitor, w), threeAtOnce, .reply (listing (sample .postgres) w visitor rootIno 0) offset threeAtOnce, (visitor, w)⟩

def Visited (w : World) : Prop :=
  (w.nodes.lookup 0).map (fun node => (node.kind, node.parentId)) = some (.directory, none)
    ∧ (w.childrenOf 0).length < page ∧ ∀ child ∈ w.childrenOf 0, (visitor.byId.lookup child.id).isSome

instance (w : World) : Decidable (Visited w) := inferInstanceAs (Decidable (_ ∧ _ ∧ _))

theorem Visited.answers {w : World} (h : Visited w) (offset : ℕ) :
    (visit w offset).Answers (sample .postgres) bare rootIno 0 offset := by
  obtain ⟨hroot, hshort, hchildren⟩ := h
  obtain ⟨node, hnode, hboth⟩ := Option.map_eq_some_iff.mp hroot
  obtain ⟨hkind, hparent⟩ := Prod.mk.inj hboth
  refine ⟨rfl, readdirReply_ends rfl rfl hnode hkind hshort
    ⟨fun child hchild => ?_, fun found parentId hfound hp => ?_⟩ ..⟩
  · exact Option.isSome_iff_exists.mp (hchildren child hchild)
  · cases hnode.symm.trans hfound
    cases hparent.symm.trans hp

theorem listing_returns_created :
    (returned [visit (lettered [0, 1]) 0, visit (lettered [0, 1, 2]) 3, visit (lettered [0, 1, 2]) 5]).count
      ⟨3, .file, [98]⟩ = 1 := by
  have hreads : Reads (sample .postgres) bare rootIno 0 0
      [visit (lettered [0, 1]) 0, visit (lettered [0, 1, 2]) 3, visit (lettered [0, 1, 2]) 5] := by
    refine .more (Visited.answers (by decide) 0) (.more (Visited.answers (by decide +kernel) 3) ?_)
    exact .last (Visited.answers (by decide) 5) (by decide +kernel)
  refine (listing_returns_once_iff hreads (by decide)).1 ?_ _ ?_
  · unfold Change.Steady
    decide
  · unfold Stays
    decide

theorem listing_skips : ∃ readings : List DirRead,
    Reads (sample .postgres) bare rootIno 0 0 readings
      ∧ (∀ r ∈ readings, ∀ entry ∈ r.entries (sample .postgres) rootIno 0, r.room.Takes entry)
      ∧ readings.map (fun r => r.after.2) = [lettered [0, 1, 2], unlettered, unlettered]
      ∧ Stays (sample .postgres) rootIno 0 readings ⟨3, .file, [98]⟩
      ∧ (returned readings).count ⟨3, .file, [98]⟩ = 0 := by
  -- The file `a` is deleted while the cookie stands behind it: `b` moves up and is skipped.
  refine ⟨[visit (lettered [0, 1, 2]) 0, visit unlettered 3, visit unlettered 4], ?_, ?_, rfl, ?_, ?_⟩
  · refine .more (Visited.answers (by decide) 0) (.more (Visited.answers (by decide +kernel) 3) ?_)
    exact .last (Visited.answers (by decide) 4) (by decide +kernel)
  · decide
  · unfold Stays
    decide
  · decide

end sample

end Dcfs.Fuse
