import Dcfs.Server.Sample

namespace Dcfs

open Machine Tables World Exec Sparse

variable {cfg : Config} {w : World} {n : Uuid}

structure NewFile (w : World) (n : Uuid) : Prop where
  node : ∃ node, w.nodes.lookup n = some node ∧ node.kind = .file ∧ node.size = 0
    ∧ node.currentVersionId = none
  unwritten : ∀ version ∈ values w.versions, version.nodeId ≠ n

/-- The file reads as `bytes`, and its size says so wherever it is kept. -/
structure Holds (cfg : Config) (w : World) (n : Uuid) (bytes : Bytes) : Prop where
  consistent : Consistent cfg w
  node : ∃ node, w.nodes.lookup n = some node ∧ node.kind ≠ .directory ∧ node.size = bytes.length
  short : bytes.length < 2 ^ 63
  visible : ∀ p, p < 2 ^ 63 → visibleByte cfg w n p = padded bytes p
  single : ∀ version ∈ w.stagingOf n,
    newest (w.stagingOf n) = some version ∧ version.size = bytes.length
  empty : visibleVersion w n = none → bytes = []

theorem NewFile.holds (hw : Consistent cfg w) (h : NewFile w n) : Holds cfg w n [] := by
  obtain ⟨node, hnode, hkind, hsize, hcur⟩ := h.node
  have hnone : w.stagingOf n = [] := by
    refine List.eq_nil_iff_forall_not_mem.mpr fun version hmem => ?_
    obtain ⟨⟨id, hid⟩, hn, -⟩ := mem_stagingOf.mp hmem
    exact h.unwritten version (mem_values.mpr ⟨id, hid⟩) hn
  have hvisible : visibleVersion w n = none := by
    rw [visibleVersion_of_none (newest_eq_none.mpr hnone) hnode, hcur]
  refine ⟨hw, ⟨node, hnode, by simp [hkind], hsize⟩, by simp, fun p _ => ?_, by simp [hnone], fun _ => rfl⟩
  rw [visibleByte_none hvisible, padded_nil]

namespace Holds

variable {bytes : Bytes}

theorem settled (h : Holds cfg w n bytes) {node : NodeRecord} {working : FileVersionRecord}
    (hnode : w.nodes.lookup n = some node) (hnew : newest (w.stagingOf n) = some working) :
    Holds cfg (settled cfg w n node working) n bytes := by
  obtain ⟨node', hnode', hkind, hsize⟩ := h.node
  cases hnode.symm.trans hnode'
  have hone : ∀ version ∈ w.stagingOf n, version.id = working.id := by
    intro version hmem
    cases hnew.symm.trans (h.single version hmem).1
    rfl
  have hlook := lookup_settled cfg w n node working n
  rw [if_pos rfl] at hlook
  have hstaging := stagingOf_settled h.consistent hnode hone
  refine ⟨settled_consistent h.consistent hnode hnew, ⟨_, hlook, hkind, ?_⟩, h.short, fun p hp => ?_,
    by simp [hstaging], fun hnone => ?_⟩
  · exact (h.single working (newest_mem hnew)).2
  · rw [visibleByte_settled h.consistent hnode hnew hone, h.visible p hp]
  · rw [visibleVersion_of_none (newest_eq_none.mpr hstaging) hlook] at hnone
    cases hnone

theorem wrote (h : Holds cfg w n bytes) {node : NodeRecord} {version : FileVersionRecord} {offset : ℕ}
    {body : Bytes} {u : World} (hnode : w.nodes.lookup n = some node) (hbody : body ≠ [])
    (hend : offset + body.length < 2 ^ 63) (hwrote : Wrote cfg n node version offset body w u) :
    Holds cfg u n (overlay bytes offset body) := by
  obtain ⟨node', hnode', hkind, hsize⟩ := h.node
  cases hnode.symm.trans hnode'
  have hlen : node.length = bytes.length := by
    rw [NodeRecord.length, hsize]
    rfl
  have hnewSize : version.size = (overlay bytes offset body).length := by
    rw [hwrote.size, hlen, length_overlay _ _ hbody]
  have hvisible := visibleVersion_of_newest hwrote.newest
  obtain ⟨generation, ctime, hlook⟩ := hwrote.lookup
  refine ⟨hwrote.consistent, ⟨_, hlook, hkind, hnewSize⟩, ?_, fun p hp => ?_, fun other hother => ?_, ?_⟩
  · rw [length_overlay _ _ hbody]
    exact max_lt h.short hend
  · rw [visibleByte_some hvisible, padded_overlay _ _ hbody]
    split_ifs with hin
    · exact hwrote.covered p hin.1 hin.2
    · rw [hwrote.kept p hp hin]
      split_ifs with hwipes
      · rw [padded_of_le (hlen ▸ hwipes.length_le)]
      · exact h.visible p hp
  · have hid : other.id = version.id := by
      by_contra hne
      obtain ⟨⟨id, hid⟩, hn, hs⟩ := mem_stagingOf.mp hother
      have hidEq := (hwrote.consistent.version hid).id_eq
      rw [hwrote.frame.versions id (hidEq ▸ hne)] at hid
      have hold := mem_stagingOf.mpr ⟨⟨id, hid⟩, hn, hs⟩
      exact hne (congrArg FileVersionRecord.id (hwrote.reused other (h.single other hold).1)).symm
    have heq : other = version := by
      obtain ⟨⟨id, hid'⟩, -, -⟩ := mem_stagingOf.mp hother
      have hv := (newest_lookup hwrote.consistent hwrote.newest).1
      rw [← hid, (hwrote.consistent.version hid').id_eq] at hv
      exact Option.some.inj (hid'.symm.trans hv)
    subst heq
    exact ⟨hwrote.newest, hnewSize⟩
  · rw [hvisible]
    rintro ⟨⟩

end Holds

inductive FileCall
  | write (offset : ℕ) (body : Bytes)
  | commit

def FileCall.operation (n : Uuid) : FileCall → Operation
  | .write offset body => .writeBytes n offset body
  | .commit => .commitNode n

/-- The file as a plain array: every body over what was there before. -/
def FileCall.model (bytes : Bytes) : FileCall → Bytes
  | .write offset body => overlay bytes offset body
  | .commit => bytes

def FileCall.writeEnd : FileCall → ℕ
  | .write offset body => if body.isEmpty then 0 else offset + body.length
  | .commit => 0

def FileCall.Bounded : FileCall → Prop
  | .write offset body => offset + body.length < 2 ^ 63
  | .commit => True

def reference (calls : List FileCall) : Bytes := calls.foldl FileCall.model []

def largestEnd (calls : List FileCall) : ℕ := (calls.map FileCall.writeEnd).foldl max 0

def afterCalls (cfg : Config) (faults : Faults) (n : Uuid) (w : World) (calls : List FileCall) : World :=
  calls.foldl (fun w call => w.after cfg faults (call.operation n)) w

theorem Holds.call {bytes : Bytes} (h : Holds cfg w n bytes) (faults : Faults) (call : FileCall)
    (hcall : call.Bounded) : Holds cfg (w.after cfg faults (call.operation n)) n (call.model bytes) := by
  obtain ⟨node, hnode, hkind, -⟩ := h.node
  cases call with
  | commit =>
    change Holds cfg (exec cfg faults (commitNode cfg n) w).2 n bytes
    cases hnew : newest (w.stagingOf n) with
    | none =>
      rw [exec_commitNode_none faults hnode hnew]
      exact h
    | some working =>
      rw [exec_commitNode faults h.consistent hnode hnew]
      exact h.settled hnode hnew
  | write offset body =>
    change Holds cfg (exec cfg faults (writeBytes cfg n offset body) w).2 n (overlay bytes offset body)
    by_cases hbody : body = []
    · subst hbody
      rw [exec_writeBytes_nil, overlay_nil]
      exact h
    · obtain ⟨version, updated, u, hwrote, hlook, hexec⟩ :=
        exec_writeBytes faults h.consistent hnode hkind hbody hcall
      have hafter := h.wrote hnode hbody hcall hwrote
      rw [hexec, afterWrite]
      split_ifs
      · exact hafter.settled hlook hwrote.newest
      · exact hafter

theorem Holds.calls {bytes : Bytes} (h : Holds cfg w n bytes) (faults : Faults) (calls : List FileCall)
    (hcalls : ∀ call ∈ calls, call.Bounded) :
    Holds cfg (afterCalls cfg faults n w calls) n (calls.foldl FileCall.model bytes) := by
  induction calls generalizing w bytes with
  | nil => exact h
  | cons call rest ih =>
    exact ih (h.call faults call (hcalls call List.mem_cons_self))
      fun c hc => hcalls c (List.mem_cons_of_mem _ hc)

theorem Holds.length {bytes : Bytes} (h : Holds cfg w n bytes) {node : NodeRecord}
    (hnode : w.nodes.lookup n = some node) :
    node.length = bytes.length := by
  obtain ⟨node', hnode', -, hsize⟩ := h.node
  cases hnode.symm.trans hnode'
  rw [NodeRecord.length, hsize]
  rfl

theorem Holds.visible_or_empty {bytes : Bytes} (h : Holds cfg w n bytes) {node : NodeRecord}
    (hnode : w.nodes.lookup n = some node) : ∃ v, node.length = 0 ∨ visibleVersion w n = some v := by
  cases hvisible : visibleVersion w n with
  | none => exact ⟨0, .inl (by rw [h.length hnode, h.empty hvisible, List.length_nil])⟩
  | some v => exact ⟨v, .inr rfl⟩

theorem Holds.read_panicked {bytes : Bytes} (h : Holds cfg w n bytes) (faults : Faults) {offset size : Option ℕ}
    (hparts : 2 ^ 63 ≤ readParts cfg bytes.length (offset.getD 0) size * vecBytes) :
    exec cfg faults (readBytes cfg n offset size) w = (.error .panicked, w) := by
  obtain ⟨node, hnode, hkind, -⟩ := h.node
  obtain ⟨v, hv⟩ := h.visible_or_empty hnode
  rw [← h.length hnode] at hparts
  exact exec_readBytes_panicked hnode hkind faults h.consistent hv hparts

theorem Holds.read {bytes : Bytes} (h : Holds cfg w n bytes) (hsize : cfg.partSize < 2 ^ 31) (faults : Faults)
    {offset size : Option ℕ} (hparts : readParts cfg bytes.length (offset.getD 0) size * vecBytes < 2 ^ 63) :
    ∃ committed, exec cfg faults (readBytes cfg n offset size) w =
      (.ok ((bytes.drop (offset.getD 0)).take (size.getD bytes.length), committed), w) := by
  obtain ⟨node, hnode, hkind, -⟩ := h.node
  obtain ⟨v, hv⟩ := h.visible_or_empty hnode
  have hlen := h.length hnode
  obtain ⟨committed, hread⟩ := exec_readBytes hnode hkind faults h.consistent hsize hv offset size
    (by rw [hlen]; exact hparts)
  refine ⟨committed, ?_⟩
  rw [hread, hlen]
  generalize offset.getD 0 = off
  congr 3
  symm
  refine eq_map_of_padded ?_ fun q hq => ?_
  · rw [List.length_take, List.length_drop, readLen]
    cases size with
    | none => simp
    | some s => rfl
  · have hshort := h.short
    rw [readLen] at hq
    rw [h.visible _ (by omega), padded_take, padded_drop, if_pos]
    cases size with
    | none =>
      simp only [Option.getD_none] at hq ⊢
      omega
    | some s =>
      simp only [Option.getD_some] at hq ⊢
      omega

theorem length_reference_from (calls : List FileCall) (bytes : Bytes) :
    (calls.foldl FileCall.model bytes).length = (calls.map FileCall.writeEnd).foldl max bytes.length := by
  induction calls generalizing bytes with
  | nil => rfl
  | cons call rest ih =>
    rw [List.foldl_cons, ih, List.map_cons, List.foldl_cons]
    congr 1
    cases call with
    | commit => exact (Nat.max_zero _).symm
    | write offset body =>
      by_cases hbody : body = []
      · subst hbody
        exact (Nat.max_zero _).symm
      · rw [FileCall.model, length_overlay _ _ hbody, FileCall.writeEnd,
          List.isEmpty_eq_false_iff.mpr hbody, if_neg Bool.false_ne_true]

theorem readBytes_reference_iff (hw : Reachable cfg w) (hsize : cfg.chunkSize < 2 ^ 31) (hnew : NewFile w n)
    (faults : Faults) (calls : List FileCall) (hcalls : ∀ call ∈ calls, call.Bounded)
    (offset size : Option ℕ) :
    (reference calls).length = largestEnd calls
      ∧ ((∃ committed, exec cfg faults (readBytes cfg n offset size) (afterCalls cfg faults n w calls) =
          (.ok (((reference calls).drop (offset.getD 0)).take (size.getD (largestEnd calls)), committed),
            afterCalls cfg faults n w calls)) ↔
        readParts cfg (largestEnd calls) (offset.getD 0) size * vecBytes < 2 ^ 63) := by
  have hlen : (reference calls).length = largestEnd calls := length_reference_from calls []
  have hpart := Config.partSize_lt hsize
  have hholds := (hnew.holds hw.sound.consistent).calls faults calls hcalls
  refine ⟨hlen, ?_⟩
  rw [← hlen]
  constructor
  · rintro ⟨committed, hread⟩
    by_contra hparts
    have hpanics := hholds.read_panicked faults (not_lt.mp hparts)
    rw [hpanics] at hread
    cases hread
  · exact hholds.read hpart faults

theorem newFile_seven : NewFile ((World.fresh 0).trace (sample .memory) [newFile 7]) 7 := by
  refine ⟨⟨_, rfl, rfl, rfl, rfl⟩, ?_⟩
  intro version hv
  cases hv

theorem readBytes_reference_sample :
    ∃ committed state, exec (sample .memory) noFaults (readBytes (sample .memory) 7 none (some 10))
        (afterCalls (sample .memory) noFaults 7 ((World.fresh 0).trace (sample .memory) [newFile 7])
          [.write 0 [1, 2, 3, 4, 5, 6], .commit, .write 5 [9], .write 8 [7]]) =
      (.ok ([1, 2, 3, 4, 5, 9, 0, 0, 7], committed), state) := by
  obtain ⟨-, hread⟩ := readBytes_reference_iff ((Reachable.fresh 0).trace [newFile 7]) (by decide) newFile_seven
    noFaults [.write 0 [1, 2, 3, 4, 5, 6], .commit, .write 5 [9], .write 8 [7]]
    (by simp [FileCall.Bounded]) none (some 10)
  obtain ⟨committed, hexec⟩ := hread.mpr (by decide)
  exact ⟨committed, _, hexec⟩

-- One byte at 2^62 in a file with chunks of four: a read of all of it panics.
theorem readBytes_panics :
    let w := (World.fresh 0).trace (sample .memory) [newFile 7]
    let calls := [FileCall.write (2 ^ 62) [1]]
    Reachable (sample .memory) w ∧ NewFile w 7 ∧ (∀ call ∈ calls, call.Bounded)
      ∧ (exec (sample .memory) noFaults (readBytes (sample .memory) 7 none none)
        (afterCalls (sample .memory) noFaults 7 w calls)).1 = .error .panicked := by
  have hreach : Reachable (sample .memory) ((World.fresh 0).trace (sample .memory) [newFile 7]) :=
    (Reachable.fresh 0).trace [newFile 7]
  have hcalls : ∀ call ∈ [FileCall.write (2 ^ 62) [1]], call.Bounded := by simp [FileCall.Bounded]
  have hholds := (newFile_seven.holds hreach.sound.consistent).calls noFaults _ hcalls
  refine ⟨hreach, newFile_seven, hcalls, ?_⟩
  rw [hholds.read_panicked noFaults]
  have hlen := length_reference_from [FileCall.write (2 ^ 62) [1]] []
  rw [hlen]
  decide

end Dcfs
