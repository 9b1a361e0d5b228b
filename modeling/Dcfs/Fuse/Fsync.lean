import Dcfs.Fuse.Buffered

namespace Dcfs.Fuse

open Effects Fs Tables Outcomes

variable {setup : Setup} {m : Mount} {ino offset : ℕ} {data : Bytes}

theorem Session.Run.safe {s : Session} (h : Session.Run setup Unbuffered s) : Safe s.acked s.mount s.accepted := by
  induction h with
  | start rootId => exact ⟨Mount.fresh_sane rootId, fun _ _ _ hack => absurd hack List.not_mem_nil⟩
  | step _ hop hends ih => exact (Op.safe hop ih).ends hends

theorem fsync_delivers {s : Session} {t : List PendingRun} (hs : Session.Run setup Unbuffered s)
    (hsync : Program.Ends (delivery (Unbuffered s.mount (.fsync ino))) (fsync setup ino s.mount) s.accepted
      (.ok (), m) t) (hack : (ino, offset, data) ∈ s.acked) :
    ∃ nodeId, m.byIno.lookup ino = some nodeId ∧ Delivered t nodeId offset data := by
  have hR := delivery_attends (Unbuffered s.mount (.fsync ino))
  obtain ⟨hsafe, hnone⟩ := (flush_then_safe (fun t => sync_calm (hR t) ino) hs.safe fun hf => hf).ends hsync
  obtain ⟨nodeId, hbound, hbytes⟩ := hsafe.kept ino offset data hack
  refine ⟨nodeId, hbound, fun p b hp => (hbytes p b hp).resolve_right ?_⟩
  rintro ⟨run, hrun, -⟩
  rw [Mount.buffers, hnone () rfl] at hrun
  cases hrun

def bare : Setup where
  chunkSize := 4
  chunkSize_pos := by decide
  hasLog := false
  hasCache := false
  drained inos := inos
  drained_perm inos := .refl inos
  answered slots := slots
  answered_perm slots := .refl slots

def emptyReport : NodeResponse := ⟨7, some 0, [97], .file, 0o644, 0, 0, 0, 0, 0, 0, none, 0, none⟩

def oneFile (takes : Bool) : (c : ClientCall) → List PendingRun → c.Reply × List PendingRun
  | .getNode _, s => (.ok emptyReport, s)
  | .findChild _ _, s => (.ok emptyReport, s)
  | .listChildren _ _ _, s => (.ok [emptyReport], s)
  | .createNode _, s => (.error .alreadyExists, s)
  | .patchNode _ _, s => (.ok emptyReport, s)
  | .renameNode _ _ _, s => (.ok emptyReport, s)
  | .deleteNode _, s => (.ok (), s)
  | .readFile _ _ _, s => (.ok [], s)
  | .readFileCacheable _ _ _, s => (.ok ([], false), s)
  | .writeFile nodeId offset data, s =>
    if takes then (.ok data.length, ⟨nodeId, offset, data⟩ :: s) else (.error .backendUnavailable, s)
  | .syncFile _, s => (.ok (), s)
  | .newUuid, s => (9, s)
  | .beginRun _ _ _, s => (none, s)
  | .extendRun _ _, s => (false, s)
  | .finishRun _, s => ((), s)
  | .takePending, s => (.ok [], s)
  | .resetLog, s => (.ok (), s)
  | .loadBlock _, s => (none, s)
  | .storeBlock _ _, s => ((), s)
  | .invalidateBlocks _, s => ((), s)

theorem oneFile_delivery {mayFail : Prop} {takes : Bool} (h : takes = false → mayFail) (c : ClientCall)
    (s : List PendingRun) : (delivery mayFail).outcome c s (oneFile takes c s).1 (oneFile takes c s).2 := by
  cases c with
  | writeFile nodeId offset data =>
    cases takes with
    | true => exact rfl
    | false => exact ⟨h rfl, rfl⟩
  | _ => exact rfl

def Session.next (s : Session) (takes : Bool) (op : Op) : Session :=
  let ended := (op.run bare s.mount).run (oneFile takes) s.accepted
  ⟨ended.1.2, ended.2, acknowledge op ended.1.1 s.acked⟩

theorem Session.Run.next {s : Session} {allowed : Mount → Op → Prop} (h : Session.Run bare allowed s) {takes : Bool}
    {op : Op} (hop : op.isData = true) (hfail : takes = false → allowed s.mount op) :
    Session.Run bare allowed (s.next takes op) :=
  .step h hop (Program.run_ends (oneFile_delivery hfail) _ _)

def oneWrite : Session := ((Session.mk (.fresh 0) [] []).next true (.lookup 1 [97])).next true (.write 2 0 [5])

theorem oneWrite_run (allowed : Mount → Op → Prop) : Session.Run bare allowed oneWrite :=
  .next (.next (.start 0) rfl nofun) rfl nofun

theorem fsync_ends (mayFail : Prop) (ino : ℕ) (s : Session)
    (h : ((fsync bare ino s.mount).run (oneFile true) s.accepted).1.1.toOption = some ()) :
    ∃ m, Program.Ends (delivery mayFail) (fsync bare ino s.mount) s.accepted (.ok (), m)
      ((fsync bare ino s.mount).run (oneFile true) s.accepted).2 := by
  have hout : ∀ c t, (delivery mayFail).outcome c t (oneFile true c t).1 (oneFile true c t).2 :=
    oneFile_delivery fun h => nomatch h
  have hends := Program.run_ends hout (fsync bare ino s.mount) s.accepted
  rw [← Prod.eta ((fsync bare ino s.mount).run (oneFile true) s.accepted).1, ok_of_toOption h] at hends
  exact ⟨_, hends⟩

theorem fsync_delivers_write : ∃ (m : Mount) (t : List PendingRun), (2, 0, [5]) ∈ oneWrite.acked
    ∧ ∃ nodeId, m.byIno.lookup 2 = some nodeId ∧ Delivered t nodeId 0 [5] := by
  have hack : (2, 0, [5]) ∈ oneWrite.acked := by decide
  obtain ⟨m, hends⟩ := fsync_ends (Unbuffered oneWrite.mount (.fsync 2)) 2 oneWrite
    rfl
  exact ⟨m, _, hack, fsync_delivers (oneWrite_run _) hends hack⟩

def refusedWrite : Session := oneWrite.next false (.getattr 2)

theorem fsync_misses_refused : ∃ (s : Session) (ino offset : ℕ) (data : Bytes) (m : Mount) (t : List PendingRun),
    Session.Run bare (fun _ _ => True) s
      ∧ Program.Ends (delivery True) (fsync bare ino s.mount) s.accepted (.ok (), m) t
      ∧ (ino, offset, data) ∈ s.acked
      ∧ ¬ ∃ nodeId, m.byIno.lookup ino = some nodeId ∧ Delivered t nodeId offset data := by
  have hack : (2, 0, [5]) ∈ refusedWrite.acked := by decide
  obtain ⟨m, hends⟩ := fsync_ends True 2 refusedWrite rfl
  have hnone : ((fsync bare 2 refusedWrite.mount).run (oneFile true) refusedWrite.accepted).2 = [] := by
    rfl
  rw [hnone] at hends
  refine ⟨refusedWrite, 2, 0, [5], m, [], (oneWrite_run _).next rfl fun _ => trivial, hends, hack, ?_⟩
  rintro ⟨nodeId, -, hdelivered⟩
  obtain ⟨run, hmem, -⟩ := hdelivered 0 5 ⟨le_refl 0, rfl⟩
  cases hmem

end Dcfs.Fuse
