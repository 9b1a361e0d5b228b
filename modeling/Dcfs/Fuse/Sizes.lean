import Dcfs.Fuse.CachedReads
import Dcfs.Fuse.Numbering

namespace Dcfs.Fuse

open Effects Fs Tables Routine

structure Sizes where
  of : Uuid → ℕ
  cache : BlockCache

namespace Sizes

variable (s : Sizes)

def put (nodeId : Uuid) (size : ℕ) : Sizes := { s with of := Function.update s.of nodeId size }

def written (nodeId : Uuid) (offset : ℕ) (data : Bytes) : Sizes :=
  if data.isEmpty then s else s.put nodeId (max (s.of nodeId) (offset + data.length))

def resized (nodeId : Uuid) : Option ℕ → Sizes
  | some size => s.put nodeId size
  | none => s

end Sizes

/--
A server of which any request may fail, with or without having had its effect. Of a range it gives any
number of bytes that are not more than were asked for.
-/
def measured : Rules Client Sizes where
  admits _ _ := True
  outcome c s r t :=
    match c, r with
    | .getNode nodeId, .ok node => node.id = nodeId ∧ node.size = s.of nodeId ∧ t = s
    | .readFile _ _ size, .ok bytes => bytes.length ≤ size ∧ t = s
    | .readFileCacheable _ _ size, .ok answer => answer.1.length ≤ size ∧ t = s
    | .writeFile nodeId offset data, .ok _ => t = s.written nodeId offset data
    | .writeFile nodeId offset data, .error _ => t = s ∨ t = s.written nodeId offset data
    | .patchNode nodeId req, .ok _ => t = s.resized nodeId req.size
    | .patchNode nodeId req, .error _ => t = s ∨ t = s.resized nodeId req.size
    | .createNode _, _ => t = s ∨ ∃ nodeId, t = s.put nodeId 0
    | .loadBlock key, r => s.cache.Loads key r t.cache ∧ t.of = s.of
    | .storeBlock key data, _ => s.cache.Stores key data t.cache ∧ t.of = s.of
    | .invalidateBlocks nodeId, _ => t = { s with cache := s.cache.invalidate nodeId }
    | _, _ => t = s

def Sizes.Drifts (s t : Sizes) : Prop := s.cache.Fewer t.cache

def Sizes.Opened (s : Sizes) : Prop := ∃ mode, s.cache = .opened mode

def sizeSent (m : Mount) (s : Sizes) (ino : ℕ) (nodeId : Uuid) : ℕ :=
  match m.pending.lookup ino with
  | some run => (s.written nodeId run.offset run.data).of nodeId
  | none => s.of nodeId

/-- The mount remembers no more of the file than there is. -/
def Attained (m : Mount) (s : Sizes) (ino : ℕ) : Prop :=
  ∀ nodeId, m.byIno.lookup ino = some nodeId → (m.highWater.lookup ino).getD 0 ≤ sizeSent m s ino nodeId

structure Measured (m : Mount) (s : Sizes) : Prop where
  matched : m.Matched
  short : s.cache.Stocked fun _ data => data.length ≤ blockSize

variable {setup : Setup} {m m' : Mount} {s t : Sizes} {ino : ℕ} {nodeId versionId : Uuid}

theorem written_cache (offset : ℕ) (data : Bytes) : (s.written nodeId offset data).cache = s.cache := by
  unfold Sizes.written
  split_ifs
  · rfl
  · rfl

theorem resized_cache (size : Option ℕ) : (s.resized nodeId size).cache = s.cache := by
  cases size with
  | some _ | none => rfl

theorem measured_cache {c : ClientCall} (hc : c.isStore = false) {r : c.Reply} (ho : measured.outcome c s r t)
    {right : Key → Bytes → Prop} (h : s.cache.Stocked right) : t.cache.Stocked right := by
  have hsame : t.cache = s.cache → t.cache.Stocked right := fun heq => heq ▸ h
  cases c with
  | storeBlock _ _ => cases hc
  | loadBlock key => exact (h.loads ho.1).1
  | invalidateBlocks nodeId =>
    obtain rfl : t = _ := ho
    exact h.invalidate nodeId
  | getNode _ =>
    cases r with
    | ok _ => exact hsame (congrArg Sizes.cache ho.2.2)
    | error _ => exact hsame (congrArg Sizes.cache ho)
  | readFile _ _ _ | readFileCacheable _ _ _ =>
    cases r with
    | ok _ => exact hsame (congrArg Sizes.cache ho.2)
    | error _ => exact hsame (congrArg Sizes.cache ho)
  | writeFile id offset data =>
    cases r with
    | ok _ => exact hsame ((congrArg Sizes.cache ho).trans (written_cache offset data))
    | error _ =>
      rcases ho with rfl | rfl
      · exact h
      · exact hsame (written_cache offset data)
  | patchNode id req =>
    cases r with
    | ok _ => exact hsame ((congrArg Sizes.cache ho).trans (resized_cache req.size))
    | error _ =>
      rcases ho with rfl | rfl
      · exact h
      · exact hsame (resized_cache req.size)
  | createNode _ =>
    rcases ho with rfl | ⟨_, rfl⟩
    · exact h
    · exact h
  | _ => exact hsame (congrArg Sizes.cache ho)

theorem measured_supplies (nodeId versionId : Uuid) :
    Supplies measured Measured nodeId versionId fun _ block => block.length ≤ blockSize where
  load index _ _ h := by
    refine ⟨trivial, fun r t ho => ?_⟩
    obtain ⟨hshort, hblock⟩ := h.short.loads ho.1
    exact ⟨⟨h.matched, hshort⟩, hblock⟩
  fetch index _ s h := by
    refine ⟨trivial, fun r t ho => ⟨⟨h.matched, measured_cache rfl ho h.short⟩, ?_⟩⟩
    rintro block keep rfl
    exact ho.1
  store hright h := ⟨trivial, fun r t ho => ⟨h.matched, h.short.stores hright ho.1⟩⟩

theorem measured_upheld (setup : Setup) : Upheld setup measured Measured where
  call c _ hstore _ s h := ⟨trivial, fun r t ho => ⟨h.matched, measured_cache hstore ho h.short⟩⟩
  supplies nodeId versionId := ⟨_, measured_supplies nodeId versionId⟩
  learns hlearns h := ⟨hlearns.matched h.matched, h.short⟩
  drop _ h := ⟨⟨h.matched.pairs, h.matched.below⟩, h.short⟩
  drain h := ⟨⟨h.matched.pairs, h.matched.below⟩, h.short⟩
  unbind h hid _ := ⟨h.matched.unbind hid, h.short⟩
  extend {m s ino run} data h _ := by
    unfold Fuse.extend
    split
    · refine .bind (.ask trivial fun r t ho => ?_)
      exact .ok ⟨rfl, rfl, ⟨h.matched.pairs, h.matched.below⟩, measured_cache rfl ho h.short⟩
    · exact .ok ⟨rfl, rfl, ⟨h.matched.pairs, h.matched.below⟩, h.short⟩
  start {m s ino nodeId} offset data h _ _ := by
    refine .bind ?_
    unfold beginRecord
    split_ifs
    · refine .ask trivial fun r t ho => ?_
      exact .ok ⟨_, rfl, rfl, ⟨h.matched.pairs, h.matched.below⟩, measured_cache rfl ho h.short⟩
    · exact .ok (.ok ⟨_, rfl, rfl, ⟨h.matched.pairs, h.matched.below⟩, h.short⟩)

theorem Lives.measured {drifts : Sizes → Sizes → Prop} (hdrifts : ∀ s t, drifts s t → s.Drifts t)
    (h : Lives setup measured drifts Sizes.Opened m s) : Measured m s := by
  apply h.keeps (measured_upheld setup).act
  · rintro rootId s ⟨mode, hmode⟩
    refine ⟨Mount.fresh_matched rootId, fun key data hfile => ?_⟩
    rw [hmode, BlockCache.opened, AList.lookup_empty] at hfile
    cases hfile
  · intro m s t hinv hdrift
    exact ⟨hinv.matched, hinv.short.fewer (hdrifts s t hdrift)⟩

structure Settled (m : Mount) (s : Sizes) (ino : ℕ) (nodeId : Uuid) (m' : Mount) (t : Sizes) : Prop where
  kept : Measured m' t
  bound : m'.byIno.lookup ino = some nodeId
  reach : m'.highWater = m.highWater
  sent : m'.pending.lookup ino = none
  size : t.of nodeId = sizeSent m s ino nodeId

theorem Settled.call {m₀ : Mount} {s₀ : Sizes} {c : ClientCall} (hstore : c.isStore = false)
    (hof : ∀ s r t, measured.outcome c s r t → t.of = s.of) : Allows measured (Settled m₀ s₀ ino nodeId) c := by
  intro m s h
  refine ⟨trivial, fun r t ho => ⟨⟨h.kept.matched, measured_cache hstore ho h.kept.short⟩, h.bound, h.reach,
    h.sent, ?_⟩⟩
  rw [hof s r t ho, h.size]

theorem flush_settles (h : Measured m s) (hid : m.byIno.lookup ino = some nodeId) :
    Meets measured (flush setup ino) (fun out m' t => out = .ok () → Settled m s ino nodeId m' t) m s := by
  refine .bind (.update ?_)
  dsimp only
  split
  · rename_i run hrun
    refine .bind (.update (.bind ((idFor_bound (m := m.dropPending ino) hid).mono ?_)))
    rintro _ _ s' ⟨rfl, rfl, hsame⟩
    refine .bind (.bind (.ask trivial fun answer t ho => ?_))
    cases answer with
    | error e => exact .bind (.fail nofun)
    | ok n =>
      rw [hsame] at ho
      have hsettled : Settled m s ino nodeId (m.dropPending ino) t := by
        refine ⟨⟨⟨h.matched.pairs, h.matched.below⟩, measured_cache rfl ho h.short⟩, hid, rfl, ?_, ?_⟩
        · rw [Mount.dropPending, lookup_erase, if_pos rfl]
        · rw [sizeSent, hrun]
          exact congrFun (congrArg Sizes.of ho) nodeId
      refine .bind (.ok ((Upkeep.finish_done (fun path => Settled.call rfl fun _ _ _ ho => ?_) run hsettled).mono ?_))
      · exact congrArg Sizes.of ho
      rintro _ m' t' ⟨rfl, hfinished⟩
      refine (Upkeep.dropBlocks_done (Settled.call rfl fun s r t ho => ?_) hfinished).mono fun _ _ _ hend _ => hend.2
      obtain rfl : t = { s with cache := s.cache.invalidate nodeId } := ho
      rfl
  · rename_i hnone
    exact .ok fun _ => ⟨h, hid, rfl, hnone, by rw [sizeSent, hnone]⟩

structure Stated (m : Mount) (s : Sizes) (ino : ℕ) (attr : Attr) (m' : Mount) (t : Sizes) (nodeId : Uuid) : Prop where
  before : m.byIno.lookup ino = some nodeId
  size : attr.size = max (sizeSent m s ino nodeId) ((m.highWater.lookup ino).getD 0)
  settled : Settled m s ino nodeId m' t
  seen : ∃ version, m'.seen.lookup ino = some (version, t.of nodeId)

theorem flush_numbers (numbers : Table ℕ Uuid) (ino : ℕ) :
    Keeps measured (fun m _ => m.byIno = numbers) (flush setup ino) := by
  refine .bind Upkeep.look fun m => ?_
  split
  · refine .bind (.update fun _ _ h => h) fun _ => Upkeep.sendDrained (fun c _ _ s h => ?_) ino _
    exact ⟨trivial, fun _ _ _ => h⟩
  · exact .ok _

theorem Mount.attrOf_numbered {node : NodeResponse} (h : m.byId.lookup node.id = some ino) :
    (m.attrOf node).1.size = max node.size ((m.highWater.lookup ino).getD 0)
      ∧ (m.attrOf node).2 = m.remember ino node := by
  unfold Mount.attrOf Mount.inoFor
  rw [h]
  exact ⟨rfl, rfl⟩

theorem getattr_states (h : Measured m s) : Meets measured (getattr setup ino)
    (fun out m' t => ∀ attr, out = .ok attr → ∃ nodeId, Stated m s ino attr m' t nodeId) m s := by
  cases hid : m.byIno.lookup ino with
  | none =>
    refine .bind ((flush_numbers m.byIno ino m s rfl).mono fun out m₁ t₁ hsame => ?_)
    cases out with
    | error e => exact nofun
    | ok _ =>
      refine .bind (.bind (.update ?_))
      dsimp only
      rw [hsame, hid]
      exact .fail nofun
  | some nodeId =>
    refine .bind ((flush_settles h hid).mono fun out m₁ t₁ hflushed => ?_)
    cases out with
    | error e => exact nofun
    | ok _ =>
      have hsettled := hflushed rfl
      refine .bind ((idFor_bound hsettled.bound).mono ?_)
      rintro _ m₂ t₂ ⟨rfl, hm₂, ht₂⟩
      refine .bind (.ask trivial fun answer t ho => ?_)
      cases answer with
      | error e => exact .bind (.fail nofun)
      | ok node =>
        obtain ⟨hnode, hsize, rfl⟩ := ho
        subst hm₂ ht₂
        refine .bind (.ok (.update fun attr hattr => ⟨nodeId, ?_⟩))
        cases hattr
        have hnumber : m₂.byId.lookup node.id = some ino := hnode ▸ hsettled.kept.matched.pairs.mp hsettled.bound
        obtain ⟨hreported, hafter⟩ := Mount.attrOf_numbered hnumber
        rw [hafter]
        refine ⟨hid, ?_, ⟨⟨⟨hsettled.kept.matched.pairs, hsettled.kept.matched.below⟩, hsettled.kept.short⟩,
          hsettled.bound,
          hsettled.reach, hsettled.sent, hsettled.size⟩, node.currentVersionId, ?_⟩
        · rw [hreported, hsize, hsettled.size, hsettled.reach]
        · rw [Mount.remember, lookup_insert, if_pos rfl, hsize]

theorem readExactly_length (offset expected fileSize : ℕ) : Meets measured (readExactly nodeId offset expected fileSize)
    (fun out _ _ => ∀ bytes, out = .ok bytes → bytes.length = expected) m s := by
  refine .bind (.ask trivial fun answer t ho => ?_)
  cases answer with
  | error e => exact .bind (.fail nofun)
  | ok bytes =>
    refine .bind (.ok ?_)
    have hmost : bytes.length ≤ expected := ho.1
    dsimp only
    split_ifs with hshort
    · exact .fail nofun
    · refine .ok fun _ hout => ?_
      cases hout
      omega

theorem readMeta_size {version : Option Uuid} (h : Measured m s)
    (hseen : m.seen.lookup ino = some (version, s.of nodeId)) :
    Meets measured (readMeta ino nodeId)
      (fun out m' t => Measured m' t ∧ ∀ found, out = .ok found → found.2 = s.of nodeId) m s := by
  refine .bind (.update ?_)
  dsimp only
  split
  · rename_i remembered _ hremembered
    cases hseen.symm.trans hremembered
    refine .ok ⟨h, fun _ hout => ?_⟩
    cases hout
    rfl
  · refine .bind (.ask trivial fun answer t ho => ?_)
    cases answer with
    | error e => exact .bind (.fail ⟨⟨h.matched, measured_cache rfl ho h.short⟩, nofun⟩)
    | ok node =>
      obtain ⟨-, hsize, rfl⟩ := ho
      refine .bind (.ok (.bind (.update (.ok ⟨⟨⟨h.matched.pairs, h.matched.below⟩, h.short⟩, fun _ hout => ?_⟩))))
      cases hout
      exact hsize

theorem read_length {version : Option Uuid} {n : ℕ} (h : Measured m s) (hid : m.byIno.lookup ino = some nodeId)
    (hnone : m.pending.lookup ino = none) (hseen : m.seen.lookup ino = some (version, s.of nodeId)) :
    Meets measured (read setup ino 0 n)
      (fun out _ _ => ∀ bytes, out = .ok bytes → bytes.length = min n (s.of nodeId)) m s := by
  refine .bind (.bind (.update ?_))
  dsimp only
  rw [hnone]
  refine .ok (.bind ((idFor_bound hid).mono ?_))
  rintro _ _ _ ⟨rfl, rfl, rfl⟩
  refine .bind ((readMeta_size h hseen).mono fun out m₁ t₁ hout => ?_)
  cases out with
  | error e => exact nofun
  | ok found =>
    obtain ⟨hkept, hfound⟩ := hout
    obtain ⟨versionId, fileSize⟩ := found
    obtain rfl : fileSize = _ := hfound _ rfl
    dsimp only
    generalize hexpected : expectedBytes n _ 0 = expected
    rw [expectedBytes, Nat.sub_zero] at hexpected
    rw [hexpected]
    split_ifs with hzero
    · refine .ok fun _ hout => ?_
      cases hout
      exact hzero.symm
    · split
      · rename_i versionId _
        refine .bind (((measured_supplies nodeId versionId).readBlocks 0 expected hkept).mono fun out m₂ t₂
          hblocks => ?_)
        cases out with
        | error e => exact nofun
        | ok bytes =>
          obtain ⟨hkept₂, hread⟩ := hblocks
          obtain ⟨block, hblock, hbytes⟩ := hread bytes rfl
          have hmost : bytes.length ≤ expected := hbytes ▸ length_flatMap_blocksOf_le hblock
          dsimp only
          split_ifs with hshort
          · refine .bind ((Upkeep.invalidate (measured_upheld setup).undisturbed setup nodeId m₂ t₂ hkept₂).mono ?_)
            intro out m₃ t₃ _
            cases out with
            | error e => exact nofun
            | ok _ => exact readExactly_length 0 expected _
          · refine .ok fun _ hout => ?_
            cases hout
            omega
      · exact readExactly_length 0 expected _

theorem reported_size_readable_iff (hlives : Lives setup measured Sizes.Drifts Sizes.Opened m s) {attr : Attr}
    {m₁ m₂ : Mount} {t₁ t₂ : Sizes} (hattr : Routine.Ends measured (getattr setup ino) m s (.ok attr) m₁ t₁) {n : ℕ}
    (hn : attr.size ≤ n) {bytes : Bytes} (hread : Routine.Ends measured (read setup ino 0 n) m₁ t₁ (.ok bytes) m₂ t₂) :
    bytes.length = attr.size ↔ Attained m s ino := by
  obtain ⟨nodeId, hstated⟩ := (getattr_states (hlives.measured fun _ _ h => h)).ends hattr attr rfl
  obtain ⟨version, hseen⟩ := hstated.seen
  have hsettled := hstated.settled
  have hlength := (read_length hsettled.kept hsettled.bound hsettled.sent hseen).ends hread bytes rfl
  have hsize := hstated.size
  rw [hsettled.size] at hlength
  have hattained : Attained m s ino ↔ (m.highWater.lookup ino).getD 0 ≤ sizeSent m s ino nodeId := by
    constructor
    · intro h
      exact h nodeId hstated.before
    · intro h id hid
      cases hstated.before.symm.trans hid
      exact h
  rw [hattained]
  omega

def zeroes (takes : Bool) : (c : ClientCall) → Sizes → c.Reply × Sizes
  | .getNode nodeId, s => (.ok { emptyReport with id := nodeId, size := s.of nodeId }, s)
  | .readFile nodeId offset size, s => (.ok (List.replicate (min size (s.of nodeId - offset)) 0), s)
  | .writeFile nodeId offset data, s =>
    if takes then (.ok data.length, s.written nodeId offset data) else (.error .backendUnavailable, s)
  | .patchNode _ _, s => (.error .backendUnavailable, s)
  | .loadBlock key, s => (none, { s with cache := s.cache.forget key })
  | .invalidateBlocks nodeId, s => ((), { s with cache := s.cache.invalidate nodeId })
  | c, s => ((oneFile takes c []).1, s)

theorem zeroes_measured (takes : Bool) (c : ClientCall) (s : Sizes) :
    measured.outcome c s (zeroes takes c s).1 (zeroes takes c s).2 := by
  cases c with
  | getNode nodeId => exact ⟨rfl, rfl, rfl⟩
  | readFile nodeId offset size => exact ⟨by simp, rfl⟩
  | readFileCacheable nodeId offset size => exact ⟨Nat.zero_le _, rfl⟩
  | writeFile nodeId offset data =>
    cases takes with
    | true => exact rfl
    | false => exact .inl rfl
  | patchNode nodeId req => exact .inl rfl
  | createNode req => exact .inl rfl
  | loadBlock key => exact ⟨⟨s.cache, fun _ _ hfile => hfile, .inr ⟨rfl, rfl⟩⟩, rfl⟩
  | storeBlock key data => exact ⟨⟨s.cache, fun _ _ hfile => hfile, .inr rfl⟩, rfl⟩
  | _ => exact rfl

def zeroed {α : Type} (takes : Bool) (x : Fs α) (m : Mount) (s : Sizes) : (Served α × Mount) × Sizes :=
  (x m).run (zeroes takes) s

theorem zeroed_ends {α : Type} {takes : Bool} {x : Fs α} {out : Served α} (h : (zeroed takes x m s).1.1 = out) :
    Routine.Ends measured x m s out (zeroed takes x m s).1.2 (zeroed takes x m s).2 := by
  rw [← h]
  exact Routine.run_ends (zeroes_measured takes) x m s

def fourWritten (takes : Bool) : (Served Result × Mount) × Sizes :=
  zeroed takes ((Act.op (.write 1 0 [1, 2, 3, 4])).run bare) (.fresh 7) ⟨fun _ => 0, .opened .mirror⟩

theorem fourWritten_lives (takes : Bool) :
    Lives bare measured Sizes.Drifts Sizes.Opened (fourWritten takes).1.2 (fourWritten takes).2 :=
  .step (.start 7 ⟨.mirror, rfl⟩) (zeroed_ends rfl)

def thenReported (takes : Bool) : (Served Attr × Mount) × Sizes :=
  zeroed true (getattr bare 1) (fourWritten takes).1.2 (fourWritten takes).2

def thenRead (takes : Bool) : (Served Bytes × Mount) × Sizes :=
  zeroed true (read bare 1 0 4) (thenReported takes).1.2 (thenReported takes).2

def fourBytes : Attr := ⟨1, 4, .file, 0o644, 0, 0, 0, 0, 0⟩

theorem four_written_read : (thenReported true).1.1 = .ok fourBytes ∧ (thenRead true).1.1 = .ok [0, 0, 0, 0]
    ∧ Attained (fourWritten true).1.2 (fourWritten true).2 1 := by
  have hreported : (thenReported true).1.1 = .ok fourBytes := by decide
  have hread : (thenRead true).1.1 = .ok [0, 0, 0, 0] := by decide
  refine ⟨hreported, hread, ?_⟩
  have hsame : fourBytes.size ≤ 4 := le_rfl
  exact (reported_size_readable_iff (fourWritten_lives true) (zeroed_ends hreported) hsame (zeroed_ends hread)).mp rfl

theorem four_refused_unreadable : ∃ m s m₁ t₁ m₂ t₂, Lives bare measured Sizes.Drifts Sizes.Opened m s
    ∧ Routine.Ends measured (getattr bare 1) m s (.ok fourBytes) m₁ t₁
    ∧ Routine.Ends measured (read bare 1 0 4) m₁ t₁ (.ok []) m₂ t₂ ∧ fourBytes.size = 4 := by
  -- The write is refused, and its four bytes are reported for ever.
  have hreported : (thenReported false).1.1 = .ok fourBytes := by decide
  have hread : (thenRead false).1.1 = .ok [] := by decide
  exact ⟨_, _, _, _, _, _, fourWritten_lives false, zeroed_ends hreported, zeroed_ends hread, rfl⟩

end Dcfs.Fuse
