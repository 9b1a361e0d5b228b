import Dcfs.File.Resized
import Dcfs.File.Staged

namespace Dcfs

open Machine Tables World Request Exec Sparse

variable {cfg : Config} {faults : Faults} {w t : World} {n : Uuid} {node : NodeRecord} {p : ℕ}
  {ops : List Operation}

/-- A write that does not cover the position, a sync, or a change of the size. -/
def Operation.Leaves (n : Uuid) (p : ℕ) : Operation → Prop
  | .writeBytes m offset body =>
    m = n ∧ offset + body.length < 2 ^ 63 ∧ ¬(offset ≤ p ∧ p < offset + body.length)
  | .commitNode m => m = n
  | op => ∃ size, op.SetsSize n size

def Operation.WipesAt (cfg : Config) (w : World) (n : Uuid) (p : ℕ) : Operation → Prop
  | .writeBytes _ offset body => body ≠ [] ∧ ∃ node ∈ w.nodes.lookup n, Wipes cfg w n node offset body p
  | _ => False

def Wiped (cfg : Config) (faults : Faults) (n : Uuid) (p : ℕ) : World → List Operation → Prop
  | _, [] => False
  | w, op :: rest => op.WipesAt cfg w n p ∨ Wiped cfg faults n p (w.after cfg faults op) rest

def ReadsZeroAt (cfg : Config) (faults : Faults) (n : Uuid) (p : ℕ) (w : World) : Prop :=
  ∀ offset size bytes, readAnswer cfg faults n offset size w = .ok bytes →
    ∀ i byte, offset.getD 0 + i = p → bytes[i]? = some byte → byte = 0

/-- At most one version of the file is open. -/
structure OneOpen (cfg : Config) (w : World) (n : Uuid) : Prop where
  consistent : Consistent cfg w
  node : ∃ node, w.nodes.lookup n = some node ∧ node.kind ≠ .directory
  single : ∀ version ∈ w.stagingOf n, newest (w.stagingOf n) = some version

section steps

theorem OneOpen.settled (h : OneOpen cfg w n) (hnode : w.nodes.lookup n = some node) (hkind : node.kind ≠ .directory)
    {working : FileVersionRecord} (hnew : newest (w.stagingOf n) = some working) :
    OneOpen cfg (settled cfg w n node working) n
      ∧ visibleByte cfg (Dcfs.settled cfg w n node working) n = visibleByte cfg w n := by
  have hone : ∀ version ∈ w.stagingOf n, version.id = working.id := by
    intro version hmem
    cases hnew.symm.trans (h.single version hmem)
    rfl
  have hstaging := stagingOf_settled h.consistent hnode hone
  refine ⟨⟨settled_consistent h.consistent hnode hnew, ?_, by simp [hstaging]⟩,
    funext (visibleByte_settled h.consistent hnode hnew hone)⟩
  rw [lookup_settled, if_pos rfl]
  exact ⟨_, rfl, hkind⟩

theorem OneOpen.wrote (h : OneOpen cfg w n) {version : FileVersionRecord} {offset : ℕ} {body : Bytes}
    (hkind : node.kind ≠ .directory) (hwrote : Wrote cfg n node version offset body w t) : OneOpen cfg t n := by
  obtain ⟨generation, ctime, hlook⟩ := hwrote.lookup
  refine ⟨hwrote.consistent, ⟨_, hlook, hkind⟩, fun other hother => ?_⟩
  obtain ⟨⟨id, hid⟩, hn, hs⟩ := mem_stagingOf.mp hother
  have hidEq := (hwrote.consistent.version hid).id_eq
  obtain ⟨hv, -⟩ := newest_lookup hwrote.consistent hwrote.newest
  by_cases heq : id = version.id
  · subst heq
    cases hv.symm.trans hid
    exact hwrote.newest
  · rw [hwrote.frame.versions id heq] at hid
    have hold := h.single other (mem_stagingOf.mpr ⟨⟨id, hid⟩, hn, hs⟩)
    exact absurd (hidEq.symm.trans (congrArg FileVersionRecord.id (hwrote.reused other hold)).symm) heq

theorem OneOpen.write (h : OneOpen cfg w n) {offset : ℕ} {body : Bytes} (hbody : body ≠ [])
    (hend : offset + body.length < 2 ^ 63) (hp : p < 2 ^ 63) (hout : ¬(offset ≤ p ∧ p < offset + body.length))
    (hnode : w.nodes.lookup n = some node) (hkind : node.kind ≠ .directory) :
    OneOpen cfg (w.after cfg faults (.writeBytes n offset body)) n
      ∧ visibleByte cfg (w.after cfg faults (.writeBytes n offset body)) n p =
        if Wipes cfg w n node offset body p then 0 else visibleByte cfg w n p := by
  obtain ⟨version, updated, u, hwrote, hlook, hexec⟩ := exec_writeBytes faults h.consistent hnode hkind hbody hend
  have hafter : w.after cfg faults (.writeBytes n offset body) = afterWrite cfg n node updated version offset body u :=
    congrArg Prod.snd hexec
  have hone := h.wrote hkind hwrote
  have hkind' : updated.kind ≠ .directory := by
    obtain ⟨generation, ctime, hlook'⟩ := hwrote.lookup
    cases hlook.symm.trans hlook'
    exact hkind
  have hbyte : visibleByte cfg u n p = if Wipes cfg w n node offset body p then 0 else visibleByte cfg w n p := by
    rw [visibleByte_some (visibleVersion_of_newest hwrote.newest), hwrote.kept p hp hout]
  rw [hafter, ← hbyte, afterWrite]
  split_ifs
  · obtain ⟨hsettled, hsame⟩ := hone.settled hlook hkind' hwrote.newest
    exact ⟨hsettled, congrFun hsame p⟩
  · exact ⟨hone, rfl⟩

variable (faults) in
theorem OneOpen.resize (h : OneOpen cfg w n) {op : Operation} {size : ℤ} (hop : op.SetsSize n size) (hreach : Sound cfg w) :
    OneOpen cfg (w.after cfg faults op) n ∧ visibleByte cfg (w.after cfg faults op) n = visibleByte cfg w n := by
  obtain ⟨node, hnode, hkind⟩ := h.node
  obtain ⟨⟨node', hnode', hkind', -, hcurrent⟩, hversions, hchunks, hobjects⟩ := lookup_setsSize cfg hop hnode faults
  have hsound : Sound cfg (w.after cfg faults op) := after_sound hreach op
  generalize w.after cfg faults op = u at *
  refine ⟨⟨hsound.consistent, ⟨node', hnode', hkind' ▸ hkind⟩, ?_⟩, funext fun p => ?_⟩
  · rw [stagingOf_congr hversions]
    exact h.single
  · have hvisible : visibleVersion u n = visibleVersion w n := by
      simp only [visibleVersion, stagingOf_congr hversions, hnode, hnode', Option.bind_some, hcurrent]
    have hplaintext : plaintextOf cfg u = plaintextOf cfg w := by
      funext row
      rw [plaintextOf, hobjects, plaintextOf]
    have hparts : partsOf cfg u = partsOf cfg w := by
      funext rows i
      rw [partsOf, hplaintext, partsOf]
    simp only [visibleByte, hvisible, byteOf, World.rowsOf, hchunks, hparts]

variable (faults) in
theorem OneOpen.leave (h : OneOpen cfg w n) (hsound : Sound cfg w) (hp : p < 2 ^ 63) {op : Operation}
    (hop : op.Leaves n p) : OneOpen cfg (w.after cfg faults op) n
      ∧ (visibleByte cfg (w.after cfg faults op) n p = 0 ↔ op.WipesAt cfg w n p ∨ visibleByte cfg w n p = 0) := by
  obtain ⟨node, hnode, hkind⟩ := h.node
  have hresize (hsets : ∃ size, op.SetsSize n size) (hwipes : ¬op.WipesAt cfg w n p) :
      OneOpen cfg (w.after cfg faults op) n ∧ (visibleByte cfg (w.after cfg faults op) n p = 0 ↔
        op.WipesAt cfg w n p ∨ visibleByte cfg w n p = 0) := by
    obtain ⟨size, hsets⟩ := hsets
    obtain ⟨hone, hsame⟩ := h.resize faults hsets hsound
    exact ⟨hone, by rw [hsame, or_iff_right hwipes]⟩
  cases op with
  | writeBytes m offset body =>
    obtain ⟨rfl, hend, hout⟩ := hop
    by_cases hbody : body = []
    · subst hbody
      change OneOpen cfg w m ∧ (visibleByte cfg w m p = 0 ↔ _)
      exact ⟨h, (or_iff_right fun hwipes => hwipes.1 rfl).symm⟩
    obtain ⟨hone, hbyte⟩ := h.write hbody hend hp hout hnode hkind
    refine ⟨hone, ?_⟩
    simp only [hbyte, Operation.WipesAt, Option.mem_def, hnode, Option.some.injEq, exists_eq_left', ite_eq_left_iff]
    tauto
  | commitNode m =>
    obtain rfl : m = n := hop
    change OneOpen cfg (exec cfg faults (commitNode cfg m) w).2 m
      ∧ (visibleByte cfg (exec cfg faults (commitNode cfg m) w).2 m p = 0 ↔ False ∨ _)
    rw [false_or]
    cases hnew : newest (w.stagingOf m) with
    | none =>
      rw [exec_commitNode_none faults hnode hnew]
      exact ⟨h, Iff.rfl⟩
    | some working =>
      rw [exec_commitNode faults h.consistent hnode hnew]
      obtain ⟨hone, hsame⟩ := h.settled hnode hkind hnew
      exact ⟨hone, by rw [hsame]⟩
  | _ => exact hresize hop id

variable (faults) in
theorem OneOpen.run (h : OneOpen cfg w n) (hsound : Sound cfg w) (hp : p < 2 ^ 63) (hops : ∀ op ∈ ops, op.Leaves n p) :
    OneOpen cfg (w.course cfg faults ops) n ∧ (visibleByte cfg (w.course cfg faults ops) n p = 0 ↔
      Wiped cfg faults n p w ops ∨ visibleByte cfg w n p = 0) := by
  induction ops generalizing w with
  | nil => exact ⟨h, (false_or _).symm.to_iff⟩
  | cons op rest ih =>
    obtain ⟨hnext, hbyte⟩ := h.leave faults hsound hp (hops op List.mem_cons_self)
    obtain ⟨hone, hrest⟩ := ih hnext (after_sound hsound op) fun op hop => hops op (List.mem_cons_of_mem _ hop)
    refine ⟨hone, hrest.trans ?_⟩
    rw [hbyte, Wiped, or_assoc, or_left_comm]

end steps

theorem readsZeroAt_iff (hw : Consistent cfg w) (hsize : cfg.partSize < 2 ^ 31) (hnode : w.nodes.lookup n = some node)
    (hkind : node.kind ≠ .directory) :
    ReadsZeroAt cfg faults n p w ↔ node.length ≤ p ∨ visibleByte cfg w n p = 0 := by
  have hanswer := readAnswer_eq faults hw hsize hnode hkind
  simp only [ReadsZeroAt, hanswer]
  cases hv : visibleVersion w n with
  | none =>
    refine iff_of_true ?_ (.inr (visibleByte_none hv p))
    intro offset size bytes hbytes i byte _ hbyte
    rw [Option.map_none, rangeAnswer_none] at hbytes
    cases hbytes
    cases hbyte
  | some v =>
    rw [Option.map_some, visibleByte_some hv]
    constructor
    · intro hzero
      refine or_iff_not_imp_left.mpr fun hlength => ?_
      exact hzero (some p) (some 1) _ (rangeAnswer_byte (not_le.mp hlength)) 0 _ rfl rfl
    · rintro hzero offset size bytes hbytes i byte rfl hbyte
      unfold rangeAnswer at hbytes
      split_ifs at hbytes
      · cases hbytes
        cases hbyte
      · cases hbytes
        rw [List.getElem?_map, Option.map_eq_some_iff] at hbyte
        obtain ⟨position, hposition, rfl⟩ := hbyte
        obtain ⟨hi, hget⟩ := List.getElem?_eq_some_iff.mp hposition
        rw [List.getElem_range', Nat.one_mul] at hget
        subst hget
        rw [List.length_range', readLen] at hi
        exact hzero.resolve_left (by omega)

theorem truncated_stays_iff (hw : Reachable cfg w) (hsize : cfg.chunkSize < 2 ^ 31)
    (hnode : w.nodes.lookup n = some node) (hkind : node.kind ≠ .directory)
    (hone : ∀ version ∈ w.stagingOf n, newest (w.stagingOf n) = some version) (faults : Faults)
    {shrink : Operation} {size : ℤ} (hshrink : shrink.SetsSize n size) (hp : p < 2 ^ 63) {ops : List Operation}
    (hops : ∀ op ∈ ops, op.Leaves n p) :
    ReadsZeroAt cfg faults n p ((w.after cfg faults shrink).course cfg faults ops) ↔
      (∀ node ∈ ((w.after cfg faults shrink).course cfg faults ops).nodes.lookup n, node.length ≤ p)
        ∨ visibleByte cfg w n p = 0 ∨ Wiped cfg faults n p (w.after cfg faults shrink) ops := by
  have hfirst : OneOpen cfg w n := ⟨hw.sound.consistent, ⟨node, hnode, hkind⟩, hone⟩
  obtain ⟨hshrunk, hsame⟩ := hfirst.resize faults hshrink hw.sound
  obtain ⟨hlast, hbyte⟩ := hshrunk.run faults (after_sound hw.sound shrink) hp hops
  obtain ⟨found, hfound, hkind'⟩ := hlast.node
  rw [readsZeroAt_iff hlast.consistent (Config.partSize_lt hsize) hfound hkind', hbyte, hsame, hfound,
    or_comm (a := Wiped ..)]
  simp

def twelveBytes : World :=
  bareFile.trace (sample .memory) [.writeBytes 7 0 [1, 2, 3, 4, 5, 6, 7, 8, 9, 10, 11, 12], .commitNode 7]

theorem truncated_stays_wiped : Reachable (sample .memory) twelveBytes ∧ ReadsZeroAt (sample .memory) noFaults 7 9
    ((twelveBytes.after (sample .memory) noFaults (resizeTo 2)).course (sample .memory) noFaults
      [.writeBytes 7 1 [9], .commitNode 7, resizeTo 12]) := by
  have hreach : Reachable (sample .memory) twelveBytes := ((Reachable.fresh 0).trace _).trace _
  obtain ⟨node, hnode, hkind⟩ : ∃ node ∈ twelveBytes.nodes.lookup 7, node.kind ≠ .directory := by decide +kernel
  have hclosed : twelveBytes.stagingOf 7 = [] := by decide +kernel
  have hops : ∀ op ∈ [.writeBytes 7 1 [9], .commitNode 7, resizeTo 12], op.Leaves 7 9 := by
    simp only [List.mem_cons, List.not_mem_nil, or_false]
    rintro op (rfl | rfl | rfl)
    · exact ⟨rfl, by decide, by decide⟩
    · rfl
    · exact ⟨12, rfl, rfl⟩
  have hshrink : (resizeTo 2).SetsSize 7 2 := ⟨rfl, rfl⟩
  refine ⟨hreach, (truncated_stays_iff hreach (by decide) hnode hkind (by simp [hclosed]) noFaults hshrink (by decide)
    hops).mpr (.inr (.inr (.inl ⟨by decide, ?_⟩)))⟩
  decide +kernel

-- The size is set to 2 and to 6 again, or a write at 3 makes the file longer: bytes from before the cut are read.
theorem truncated_bytes_return :
    let w := bareFile.trace (sample .memory) [.writeBytes 7 0 [1, 2, 3, 4, 5, 6], .commitNode 7]
    let cut := w.after (sample .memory) noFaults (resizeTo 2)
    Reachable (sample .memory) w ∧ w.stagingOf 7 = [] ∧ (resizeTo 2).SetsSize 7 2 ∧ (resizeTo 6).Leaves 7 4
      ∧ (Operation.writeBytes 7 3 [9]).Leaves 7 2
      ∧ readAnswer (sample .memory) noFaults 7 none none (cut.after (sample .memory) noFaults (resizeTo 6)) =
        .ok [1, 2, 3, 4, 5, 6]
      ∧ readAnswer (sample .memory) noFaults 7 none none
        (cut.after (sample .memory) noFaults (.writeBytes 7 3 [9])) = .ok [1, 2, 3, 9] :=
  ⟨((Reachable.fresh 0).trace _).trace _, by decide +kernel, ⟨rfl, rfl⟩, ⟨6, rfl, rfl⟩, ⟨rfl, by decide, by decide⟩,
    by decide +kernel, by decide +kernel⟩

end Dcfs
