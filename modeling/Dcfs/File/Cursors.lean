import Dcfs.File.Doors
import Dcfs.Names.Requests

namespace Dcfs

open Effects Machine Tables World Exec Sparse

variable {cfg : Config} {faults : Faults} {w u : World} {n : Uuid} {bytes : Bytes} {α β : Type}

section run

variable {file file' : Dav.File} {a : α}

theorem run_then {x : Dav.FileOp α} {f : α → Dav.FileOp β}
    (h : Program.run (handle cfg faults) (x file) w = ((.ok a, file'), u)) :
    Program.run (handle cfg faults) ((x >>= f) file) w = Program.run (handle cfg faults) (f a file') u := by
  change Program.run _ (x file >>= fun out => ExceptT.bindCont f out.1 out.2) w = _
  rw [Program.run_bind, h]
  rfl

theorem run_data {p : ReadRequest α} (h : exec cfg faults p w = (.ok a, u)) (file : Dav.File) :
    Program.run (handle cfg faults) (Dav.data p file) w = ((.ok a, file), u) := by
  unfold exec at h
  change Program.run _ (p.run >>= fun result =>
    .done (result.mapError (Fault.map fun _ => FsError.generalFailure), file)) w = _
  rw [Program.run_bind, h]
  rfl

theorem run_step {p : Request α} (h : exec cfg faults p w = (.ok a, u)) (file : Dav.File) :
    Program.run (handle cfg faults) (Dav.data (liftM p) file) w = ((.ok a, file), u) := by
  apply run_data
  rw [exec_step, h]
  rfl

theorem run_getNode {node : NodeRecord} (h : w.nodes.lookup n = some node) (file : Dav.File) :
    Program.run (handle cfg faults) (Dav.getNode n file) w = ((.ok node, file), w) := by
  have hanswer : perform cfg faults w (.query (.getNode n)) = (.ok node, w) := by
    simp only [perform, answer_getNode h]
  change Program.run (handle cfg faults)
    (Program.bind ((Dav.repo (perform cfg faults w (.query (.getNode n))).1).run) _)
    (perform cfg faults w (.query (.getNode n))).2 = _
  rw [hanswer]
  rfl

end run

theorem Stands.write (h : Stands cfg w n bytes) (faults : Faults) {offset : ℕ} {body : Bytes}
    (hend : offset + body.length < 2 ^ 63) :
    ∃ u, exec cfg faults (writeBytes cfg n offset body) w = (.ok body.length, u)
      ∧ Stands cfg u n (overlay bytes offset body) := by
  obtain ⟨node, hnode, hkind, -⟩ := h.node
  by_cases hbody : body = []
  · subst hbody
    exact ⟨w, exec_writeBytes_nil faults offset, h⟩
  · obtain ⟨version, updated, u, hwrote, hlook, hexec⟩ := exec_writeBytes faults h.consistent hnode hkind hbody hend
    have hafter := h.toHolds.wrote hnode hbody hend hwrote
    refine ⟨_, hexec, ?_⟩
    rw [afterWrite]
    split_ifs
    · exact hafter.stands_settled hlook hwrote.newest
    · exact hafter.stands_of_newest hwrote.newest

theorem Stands.commit (h : Stands cfg w n bytes) (faults : Faults) :
    ∃ u, exec cfg faults (commitNode cfg n) w = (.ok (), u) ∧ Stands cfg u n bytes := by
  obtain ⟨node, hnode, -⟩ := h.node
  cases hnew : newest (w.stagingOf n) with
  | none => exact ⟨w, exec_commitNode_none faults hnode hnew, h⟩
  | some working =>
    exact ⟨_, exec_commitNode faults h.consistent hnode hnew, h.toHolds.stands_settled hnode hnew⟩

structure OnDesk (cfg : Config) (n : Uuid) (s : Doors) (d : Desk) : Prop where
  sound : Sound cfg s.world
  stands : Stands cfg s.world n d.bytes
  files : s.files = d.cursors.map fun pos => ⟨n, pos⟩
  inRange : ∀ pos ∈ d.cursors, pos < 2 ^ 64

def Listable (cfg : Config) (w : World) (n : Uuid) (offset : ℕ) (size : Option ℕ) : Prop :=
  ∀ node, w.nodes.lookup n = some node → readParts cfg node.length offset size * vecBytes < 2 ^ 63

/-- A call that the array has an answer to: no write ends past what a file may hold, no read spans more parts than
can be listed, a file that is opened is found and left as it is, and what is asked of the rest of the server is not
for the file. -/
def DoorCall.Fits (cfg : Config) (faults : Faults) (n : Uuid) (s : Doors) : DoorCall → Prop
  | .read offset size => Listable cfg s.world n (offset.getD 0) size
  | .write offset body => offset + body.length < 2 ^ 63
  | .opened path options => options.truncate = false ∧ options.createNew = false
      ∧ ∃ node, (exec cfg faults (Dav.resolve path.asBytes) s.world).1 = .ok node ∧ node.id = n
  | .file i (.writeBytes buf) => ∀ file, s.files[i]? = some file → file.pos + buf.length < 2 ^ 63
  | .file i (.writeBuf buf) => ∀ file, s.files[i]? = some file → file.pos + buf.flatten.length < 2 ^ 63
  | .file i (.readBytes count) => ∀ file, s.files[i]? = some file → Listable cfg s.world n file.pos (some count)
  | .other op => op.Spares s.world n
  | _ => True

def Doors.Fit (cfg : Config) (faults : Faults) (n : Uuid) (s : Doors) : List DoorCall → Prop
  | [] => True
  | call :: rest => call.Fits cfg faults n s ∧ Doors.Fit cfg faults n (s.ask cfg faults n call).2 rest

def SameAnswer (cfg : Config) (n : Uuid) (x : DoorReply × Doors) (y : DoorReply × Desk) : Prop :=
  x.1 = y.1 ∧ OnDesk cfg n x.2 y.2

theorem saturatingAddSigned_lt (k : ℕ) (offset : ℤ) : saturatingAddSigned k offset < 2 ^ 64 := by
  unfold saturatingAddSigned
  omega

theorem SeekFrom.target_lt (pos len : ℕ) (target : SeekFrom) : target.target pos len < 2 ^ 64 := by
  cases target with
  | start target => exact target.toNat_lt
  | current offset => exact saturatingAddSigned_lt pos offset
  | fromEnd offset => exact saturatingAddSigned_lt len offset

namespace OnDesk

variable {s : Doors} {d : Desk}

theorem lookup (h : OnDesk cfg n s d) (i : ℕ) : s.files[i]? = d.cursors[i]?.map fun pos => ⟨n, pos⟩ := by
  rw [h.files, List.getElem?_map]

theorem read (h : OnDesk cfg n s d) (hsize : cfg.partSize < 2 ^ 31) (faults : Faults) (offset size : Option ℕ)
    (hlist : Listable cfg s.world n (offset.getD 0) size) :
    ∃ committed, exec cfg faults (readBytes cfg n offset size) s.world =
      (.ok ((d.bytes.drop (offset.getD 0)).take (size.getD d.bytes.length), committed), s.world) := by
  obtain ⟨node, hnode, -⟩ := h.stands.node
  have hparts := hlist node hnode
  rw [h.stands.length hnode] at hparts
  exact h.stands.read hsize faults hparts

theorem moved (h : OnDesk cfg n s d) (hu : Sound cfg u) (hbytes : Stands cfg u n bytes) (i : ℕ) {pos : ℕ}
    (hpos : pos < 2 ^ 64) : OnDesk cfg n ⟨u, s.files.set i ⟨n, pos⟩⟩ ⟨bytes, d.cursors.set i pos⟩ := by
  refine ⟨hu, hbytes, ?_, fun other hother => ?_⟩
  · dsimp only
    rw [h.files, List.map_set]
  · rcases List.mem_or_eq_of_mem_set hother with hmem | rfl
    · exact h.inRange other hmem
    · exact hpos

theorem changed (h : OnDesk cfg n s d) (hu : Sound cfg u) (hbytes : Stands cfg u n bytes) :
    OnDesk cfg n { s with world := u } { d with bytes := bytes } := ⟨hu, hbytes, h.files, h.inRange⟩

theorem write (h : OnDesk cfg n s d) (faults : Faults) {offset : ℕ} {body : Bytes}
    (hend : offset + body.length < 2 ^ 63) :
    ∃ u, exec cfg faults (writeBytes cfg n offset body) s.world = (.ok body.length, u) ∧ Sound cfg u
      ∧ Stands cfg u n (overlay d.bytes offset body) := by
  obtain ⟨u, hexec, hu⟩ := h.stands.write faults hend
  have hsound : Sound cfg (exec cfg faults (writeBytes cfg n offset body) s.world).2 :=
    writeBytes_keeps n offset body s.world h.sound
  rw [hexec] at hsound
  exact ⟨u, hexec, hsound, hu⟩

theorem commit (h : OnDesk cfg n s d) (faults : Faults) :
    ∃ u, exec cfg faults (commitNode cfg n) s.world = (.ok (), u) ∧ Sound cfg u ∧ Stands cfg u n d.bytes := by
  obtain ⟨u, hexec, hu⟩ := h.stands.commit faults
  have hsound : Sound cfg (exec cfg faults (commitNode cfg n) s.world).2 := commitNode_keeps n s.world h.sound
  rw [hexec] at hsound
  exact ⟨u, hexec, hsound, hu⟩

theorem run_self (file : Dav.File) (w : World) :
    Program.run (handle cfg faults) (Dav.self file) w = ((.ok file, file), w) := rfl

theorem ask_file {i : ℕ} {request : FileRequest} {file file' : Dav.File} {reply : DoorReply}
    (hfile : s.files[i]? = some file)
    (hrun : Program.run (handle cfg faults) (request.serve cfg file) s.world = ((.ok reply, file'), u)) :
    s.ask cfg faults n (.file i request) = (reply, ⟨u, s.files.set i file'⟩) := by
  simp only [Doors.ask, hfile, hrun]

section handles

variable {i pos : ℕ} (h : OnDesk cfg n s d) (hcursor : d.cursors[i]? = some pos)

include h hcursor

theorem file : s.files[i]? = some ⟨n, pos⟩ := by
  rw [h.lookup, hcursor]
  rfl

theorem pos_lt : pos < 2 ^ 64 := h.inRange pos (List.mem_of_getElem? hcursor)

theorem stayed : OnDesk cfg n ⟨s.world, s.files.set i ⟨n, pos⟩⟩ d := by
  have hset : d.cursors.set i pos = d.cursors := by
    obtain ⟨hi, rfl⟩ := List.getElem?_eq_some_iff.mp hcursor
    exact List.set_getElem_self hi
  have hmoved := h.moved h.sound h.stands i (h.pos_lt hcursor)
  rwa [hset] at hmoved

omit hcursor in
theorem use_write (faults : Faults) {buf : Bytes} (hend : pos + buf.length < 2 ^ 63) :
    ∃ u, Program.run (handle cfg faults) (Dav.File.writeBytes cfg buf ⟨n, pos⟩) s.world =
        ((.ok (), ⟨n, pos + buf.length⟩), u)
      ∧ OnDesk cfg n ⟨u, s.files.set i ⟨n, pos + buf.length⟩⟩ (d.write i pos buf).2 := by
  obtain ⟨u, hexec, hu, hstands⟩ := h.write faults hend
  have hsmall : pos + buf.length < 2 ^ 64 := hend.trans (by decide)
  refine ⟨u, ?_, h.moved hu hstands i hsmall⟩
  rw [Dav.File.writeBytes, run_then (run_self _ _), run_then (run_step hexec _), addU64_of_lt hsmall]
  rfl

theorem use_answer (hsize : cfg.partSize < 2 ^ 31) (faults : Faults) {request : FileRequest}
    (hfits : (DoorCall.file i request).Fits cfg faults n s) :
    SameAnswer cfg n (s.ask cfg faults n (.file i request)) (d.use i pos request) := by
  have hfile := h.file hcursor
  obtain ⟨node, hnode, hkind, hlength⟩ := h.stands.node
  have hlen : node.length = d.bytes.length := by
    rw [NodeRecord.length, hlength]
    rfl
  cases request with
  | metadata =>
    have hrun : Program.run (handle cfg faults) (FileRequest.serve cfg .metadata ⟨n, pos⟩) s.world =
        ((.ok (.found d.bytes.length false), ⟨n, pos⟩), s.world) := by
      have hmeta : Program.run (handle cfg faults) (Dav.File.metadata ⟨n, pos⟩) s.world =
          ((.ok (.ofNode node), ⟨n, pos⟩), s.world) := by
        rw [Dav.File.metadata, run_then (run_self _ _), run_then (run_getNode hnode _)]
        rfl
      rw [FileRequest.serve, run_then hmeta, ← hlen, ← beq_eq_false_iff_ne.mpr hkind]
      rfl
    rw [ask_file hfile hrun]
    exact ⟨rfl, h.stayed hcursor⟩
  | writeBytes buf =>
    obtain ⟨u, hrun, hdesk⟩ := h.use_write faults (hfits _ hfile)
    rw [ask_file hfile (run_then hrun)]
    exact ⟨rfl, hdesk⟩
  | writeBuf buf =>
    obtain ⟨u, hrun, hdesk⟩ := h.use_write faults (hfits _ hfile)
    rw [ask_file hfile (run_then hrun)]
    exact ⟨rfl, hdesk⟩
  | readBytes count =>
    have hlist : Listable cfg s.world n pos (some count) := hfits ⟨n, pos⟩ hfile
    obtain ⟨committed, hexec⟩ := h.read hsize faults (some pos) (some count) hlist
    simp only [Option.getD_some] at hexec
    have hsmall : pos + ((d.bytes.drop pos).take count).length < 2 ^ 64 := by
      have := h.pos_lt hcursor
      have := h.stands.short
      rw [List.length_take, List.length_drop]
      omega
    have hrun : Program.run (handle cfg faults) (Dav.File.readBytes cfg count ⟨n, pos⟩) s.world =
        ((.ok ((d.bytes.drop pos).take count), ⟨n, pos + ((d.bytes.drop pos).take count).length⟩), s.world) := by
      rw [Dav.File.readBytes, run_then (run_self _ _), run_then (run_data hexec _)]
      dsimp only
      rw [addU64_of_lt hsmall]
      rfl
    rw [ask_file hfile (run_then hrun)]
    exact ⟨rfl, h.moved h.sound h.stands i hsmall⟩
  | seek target =>
    have hrun : Program.run (handle cfg faults) (Dav.File.seek target ⟨n, pos⟩) s.world =
        ((.ok (target.target pos d.bytes.length), ⟨n, target.target pos d.bytes.length⟩), s.world) := by
      rw [Dav.File.seek, run_then (run_self _ _)]
      cases target with
      | start target => rfl
      | current offset => rfl
      | fromEnd offset =>
        dsimp only
        rw [run_then (run_getNode hnode _), hlen]
        rfl
    rw [ask_file hfile (run_then hrun)]
    exact ⟨rfl, h.moved h.sound h.stands i (SeekFrom.target_lt _ _ _)⟩
  | flush =>
    obtain ⟨u, hexec, hu, hstands⟩ := h.commit faults
    have hrun : Program.run (handle cfg faults) (Dav.File.flush cfg ⟨n, pos⟩) s.world = ((.ok (), ⟨n, pos⟩), u) := by
      rw [Dav.File.flush, run_then (run_self _ _), run_step hexec]
    rw [ask_file hfile (run_then hrun)]
    exact ⟨rfl, (h.stayed hcursor).changed hu hstands⟩

end handles

theorem opened_answer (h : OnDesk cfg n s d) (faults : Faults) {path : DavPath} {options : OpenOptions}
    (hfits : (DoorCall.opened path options).Fits cfg faults n s) :
    SameAnswer cfg n (s.ask cfg faults n (.opened path options)) (d.ask (.opened path options)) := by
  obtain ⟨htruncate, hnew, node, hresolve, rfl⟩ := hfits
  obtain ⟨r, hr, hfound⟩ := exec_resolve_found cfg faults
    (fun hnode => (h.sound.consistent.node hnode).id_eq) path.asBytes
  obtain rfl : r = .ok node := by rw [← hresolve, hr]
  obtain ⟨node', hnode', hkind, -⟩ := h.stands.node
  cases (hfound node rfl).symm.trans hnode'
  have hopen : exec cfg faults (Dav.openFile path options) s.world = (.ok node, s.world) := by
    rw [Dav.openFile, exec_attempt, hr]
    simp only [Dav.openFound, hnew, htruncate, hkind, Bool.false_eq_true, if_false]
    rfl
  have hexec : exec cfg faults (Dav.openedFile path options) s.world = (.ok ⟨node.id, 0⟩, s.world) := by
    rw [Dav.openedFile, exec_bind_ok hopen]
    rfl
  simp only [Doors.ask, hexec]
  refine ⟨rfl, h.sound, h.stands, ?_, fun pos hpos => ?_⟩
  · change s.files ++ [_] = List.map _ (d.cursors ++ [0])
    rw [h.files, List.map_append]
    rfl
  · rcases List.mem_append.mp hpos with hmem | hmem
    · exact h.inRange pos hmem
    · cases List.mem_singleton.mp hmem
      decide

theorem ask_answer (h : OnDesk cfg n s d) (hsize : cfg.partSize < 2 ^ 31) (faults : Faults) {call : DoorCall}
    (hfits : call.Fits cfg faults n s) : SameAnswer cfg n (s.ask cfg faults n call) (d.ask call) := by
  cases call with
  | read offset size =>
    obtain ⟨committed, hexec⟩ := h.read hsize faults offset size hfits
    simp only [Doors.ask, Doors.answer, hexec]
    exact ⟨rfl, h⟩
  | write offset body =>
    obtain ⟨u, hexec, hu, hstands⟩ := h.write faults hfits
    simp only [Doors.ask, Doors.answer, hexec]
    exact ⟨rfl, h.changed hu hstands⟩
  | commit =>
    obtain ⟨u, hexec, hu, hstands⟩ := h.commit faults
    simp only [Doors.ask, Doors.answer, hexec]
    exact ⟨rfl, h.changed hu hstands⟩
  | opened path options => exact h.opened_answer faults hfits
  | file i request =>
    cases hcursor : d.cursors[i]? with
    | none =>
      have hfile : s.files[i]? = none := by
        rw [h.lookup, hcursor]
        rfl
      simp only [Doors.ask, hfile, Desk.ask, hcursor]
      exact ⟨rfl, h⟩
    | some pos =>
      simp only [Desk.ask, hcursor]
      exact h.use_answer hcursor hsize faults hfits
  | other op => exact ⟨rfl, h.changed (after_sound h.sound op) (h.stands.spared h.sound faults hfits)⟩

theorem serve_answers (h : OnDesk cfg n s d) (hsize : cfg.partSize < 2 ^ 31) (faults : Faults) {calls : List DoorCall}
    (hfit : s.Fit cfg faults n calls) :
    (s.serve cfg faults n calls).1 = (d.serve calls).1
      ∧ OnDesk cfg n (s.serve cfg faults n calls).2 (d.serve calls).2 := by
  induction calls generalizing s d with
  | nil => exact ⟨rfl, h⟩
  | cons call rest ih =>
    obtain ⟨hreply, hdesk⟩ := h.ask_answer hsize faults hfit.1
    obtain ⟨hreplies, hlast⟩ := ih hdesk hfit.2
    exact ⟨congrArg₂ List.cons hreply hreplies, hlast⟩

end OnDesk

theorem doors_refine_array (hw : Reachable cfg w) (hsize : cfg.chunkSize < 2 ^ 31) (hnew : NewFile w n)
    (faults : Faults)
    (calls : List DoorCall) (hfit : Doors.Fit cfg faults n ⟨w, []⟩ calls) :
    (Doors.serve cfg faults n ⟨w, []⟩ calls).1 = (Desk.serve ⟨[], []⟩ calls).1 := by
  have hpart := Config.partSize_lt hsize
  have hdesk : OnDesk cfg n ⟨w, []⟩ ⟨[], []⟩ := by
    refine ⟨hw.sound, hnew.stands hw.sound.consistent, rfl, fun pos hpos => ?_⟩
    cases hpos
  exact (hdesk.serve_answers hpart faults hfit).1

theorem doors_refine_array_shared :
    (Doors.serve (sample .memory) noFaults 7 ⟨(World.fresh 0).trace (sample .memory) [newFile 7], []⟩
      [.opened (inRoot [102]) ⟨false, false, false⟩, .opened (inRoot [102]) ⟨false, true, false⟩,
        .file 0 (.writeBytes [1, 2, 3, 4, 5]),
        .other (newFile 8), .file 1 (.seek (.fromEnd (-2))), .file 1 (.readBytes 9), .read none none]).1 =
      [.done, .done, .done, .done, .position 3, .bytes [4, 5], .bytes [1, 2, 3, 4, 5]] := by
  refine doors_refine_array ((Reachable.fresh 0).trace [newFile 7]) (by decide) newFile_seven noFaults _
    ⟨⟨rfl, rfl, _, rfl, rfl⟩, ⟨rfl, rfl, _, rfl, rfl⟩, ?_, trivial, trivial, ?_, ?_, trivial⟩
  · intro file hfile
    cases hfile
    decide
  · intro file hfile node hnode
    cases hfile
    cases hnode
    decide
  · intro node hnode
    cases hnode
    decide

end Dcfs
