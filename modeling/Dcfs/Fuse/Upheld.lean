import Dcfs.Fuse.Upkeep

namespace Dcfs.Fuse

open Effects Fs Tables Routine

def ClientCall.isRecord : ClientCall → Bool
  | .beginRun _ _ _ => true
  | .extendRun _ _ => true
  | _ => false

def PendingWrite.grown (run : PendingWrite) (data : Bytes) : PendingWrite := { run with data := run.data ++ data }

variable {σ α : Type} {setup : Setup} {R : Rules Client σ} {inv : Mount → σ → Prop}

structure Upheld (setup : Setup) (R : Rules Client σ) (inv : Mount → σ → Prop) : Prop where
  call : ∀ c : ClientCall, c.isRecord = false → c.isStore = false → Allows R inv c
  supplies : ∀ nodeId versionId, ∃ right, Supplies R inv nodeId versionId right
  learns : ∀ {m m' s}, m.Learns m' → inv m s → inv m' s
  drop : ∀ {m s} ino, inv m s → inv (m.dropPending ino) s
  drain : ∀ {m s}, inv m s → inv { m with pending := ∅ } s
  unbind : ∀ {m s ino id}, inv m s → m.byIno.lookup ino = some id → m.pending.lookup ino = none →
    inv (m.unbind ino id) s
  extend : ∀ {m s ino run} data, inv m s → m.pending.lookup ino = some run →
    Meets R (extend setup run data)
      (fun out m' t => out = .ok () ∧ m' = m ∧ inv (m.setPending ino (run.grown data)) t) m s
  start : ∀ {m s ino nodeId} offset data, inv m s → m.byIno.lookup ino = some nodeId → m.pending.lookup ino = none →
    Meets R (startRun setup nodeId offset data)
      (fun out m' t => ∃ run, out = .ok run ∧ m' = m ∧ inv (m.setPending ino run) t) m s

theorem ClientCall.not_record_of_send {c : ClientCall} (h : c.isSend = true) :
    c.isRecord = false ∧ c.isStore = false := by
  cases c with
  | beginRun _ _ _ | extendRun _ _ | storeBlock _ _ => cases h
  | _ => exact ⟨rfl, rfl⟩

theorem ClientCall.not_record_of_aside {c : ClientCall} (h : c.isAside = true) : c.isRecord = false := by
  cases c with
  | beginRun _ _ _ | extendRun _ _ => cases h
  | _ => rfl

namespace Upheld

variable (h : Upheld setup R inv)

include h

theorem undisturbed : Undisturbed R inv :=
  ⟨fun c hc => h.call c (ClientCall.not_record_of_aside hc), h.supplies, h.learns⟩

theorem sends (c : ClientCall) (hc : c.isSend = true) : Allows R inv c := by
  obtain ⟨hrecord, hstore⟩ := ClientCall.not_record_of_send hc
  exact h.call c hrecord hstore

theorem still (m₀ : Mount) (c : ClientCall) (hc : c.isSend = true) : Allows R (fun m s => m = m₀ ∧ inv m s) c := by
  rintro m s ⟨rfl, hinv⟩
  obtain ⟨hadmits, hkeeps⟩ := h.sends c hc m s hinv
  exact ⟨hadmits, fun r t hr => ⟨rfl, hkeeps r t hr⟩⟩

theorem flush (ino : ℕ) : Keeps R inv (flush setup ino) := by
  refine .bind Upkeep.look fun m => ?_
  split
  · exact .bind (.update fun _ _ => h.drop ino) fun _ => Upkeep.sendDrained h.sends ino _
  · exact .ok _

theorem flushAll : Keeps R inv (flushAll setup) :=
  .bind Upkeep.look fun _ => .bind (.update fun _ _ => h.drain) fun _ => Upkeep.sendAll h.sends _

theorem lookup (parentIno : ℕ) (name : Bytes) : Keeps R inv (lookup setup parentIno name) :=
  .bind h.flushAll fun _ => Upkeep.findName h.undisturbed parentIno name

theorem startRun {ino : ℕ} {nodeId : Uuid} (offset : ℕ) (data : Bytes) {m : Mount} {s : σ} (hinv : inv m s)
    (hid : m.byIno.lookup ino = some nodeId) (hnone : m.pending.lookup ino = none) :
    Meets R (do
      let run ← Fuse.startRun setup nodeId offset data
      change (·.setPending ino run)
      pure run) (fun _ m' t => inv m' t) m s := by
  refine .bind ((h.start offset data hinv hid hnone).mono ?_)
  rintro _ _ t ⟨run, rfl, rfl, hset⟩
  exact .bind (.update (.ok hset))

theorem buffer {ino : ℕ} {nodeId : Uuid} (offset : ℕ) (data : Bytes) {m : Mount} {s : σ} (hinv : inv m s)
    (hid : m.byIno.lookup ino = some nodeId) :
    Meets R (buffer setup ino nodeId offset data) (fun _ m' t => inv m' t) m s := by
  refine .bind (.update ?_)
  dsimp only
  split
  · rename_i run hrun
    split_ifs
    · refine .bind ((h.extend data hinv hrun).mono ?_)
      rintro _ _ t ⟨rfl, rfl, hset⟩
      exact .bind (.update (.ok hset))
    · refine .bind (.update (.bind ?_))
      refine (Upkeep.send (h.still _) nodeId run (m.dropPending ino) s ⟨rfl, h.drop ino hinv⟩).mono ?_
      rintro out _ t ⟨rfl, hdropped⟩
      cases out with
      | error e => exact hdropped
      | ok _ =>
        apply h.startRun offset data hdropped hid
        rw [Mount.dropPending, lookup_erase, if_pos rfl]
  · rename_i hnone
    exact h.startRun offset data hinv hid hnone

theorem write (ino offset : ℕ) (data : Bytes) : Keeps R inv (write setup ino offset data) := by
  intro m s hinv
  refine .bind (.bind (.update ?_))
  dsimp only
  split
  · rename_i nodeId hid
    have hreach := h.learns (.reach ino (offset + data.length)) hinv
    refine .ok (.bind (.update (.bind ((h.buffer offset data hreach hid).mono fun out m₁ t₁ hinv₁ => ?_))))
    cases out with
    | error e => exact hinv₁
    | ok run =>
      have hsend : Keeps R inv (sendDue setup ino nodeId run) := by
        refine Upkeep.ite (fun _ => .bind (.update fun _ _ => h.drop ino) fun _ => ?_) fun _ => .ok _
        exact Upkeep.send h.sends nodeId run
      exact (Keeps.bind hsend fun _ => .bind (Upkeep.invalidate h.undisturbed setup nodeId) fun _ => .ok data.length)
        m₁ t₁ hinv₁
  · exact .fail hinv

theorem setattr (ino : ℕ) (req : PatchNodeRequest) : Keeps R inv (setattr setup ino req) :=
  .bind (h.flush ino) fun _ => Upkeep.patch h.undisturbed (fun _ _ => h.call _ rfl rfl) setup ino req

theorem created (req : CreateNodeRequest) : Keeps R inv (do
    let node ← Fs.served (← Fs.ask (.createNode req))
    Fuse.attrOf node) :=
  Upkeep.request (h.call _ rfl rfl) fun _ => .bind (Upkeep.served _) fun node => Upkeep.attrOf h.undisturbed node

theorem create (parentIno : ℕ) (name : Bytes) (kind : NodeKind) (mode uid gid : ℕ) :
    Keeps R inv (create parentIno name kind mode uid gid) := by
  refine .bind (Upkeep.idFor parentIno) fun parentId => ?_
  split
  · exact .fail _
  · exact Upkeep.request (h.call _ rfl rfl) fun key => h.created _

theorem symlink (parentIno : ℕ) (name target : Bytes) (uid gid : ℕ) :
    Keeps R inv (symlink parentIno name target uid gid) := by
  refine .bind (Upkeep.idFor parentIno) fun parentId => ?_
  split
  · exact .fail _
  · exact Upkeep.ite (fun _ => .fail _) fun _ => Upkeep.request (h.call _ rfl rfl) fun key => h.created _

theorem discard {ino : ℕ} {m : Mount} {s : σ} (hinv : inv m s) : Meets R (discard setup ino)
    (fun out m' t => out = .ok () ∧ inv m' t ∧ m'.byIno = m.byIno ∧ m'.pending.lookup ino = none) m s := by
  refine .bind (.update ?_)
  dsimp only
  split
  · rename_i run hrun
    refine .bind (.update ((Upkeep.finish_done (fun _ => h.still (m.dropPending ino) _ rfl) run
      ⟨rfl, h.drop ino hinv⟩).mono ?_))
    rintro _ _ t ⟨rfl, rfl, hend⟩
    exact ⟨rfl, hend, rfl, by rw [Mount.dropPending, lookup_erase, if_pos rfl]⟩
  · rename_i hnone
    exact .ok ⟨rfl, hinv, rfl, hnone⟩

theorem forget {ino : ℕ} {id : Uuid} {m : Mount} {s : σ} (hinv : inv m s) (hid : m.byIno.lookup ino = some id)
    (hnone : m.pending.lookup ino = none) : Meets R (do
      Fuse.invalidate setup id
      change (·.unbind ino id)) (fun _ m' t => inv m' t) m s := by
  refine .bind ((Upkeep.dropBlocks_done (h.still m (.invalidateBlocks id) rfl) ⟨rfl, hinv⟩).mono ?_)
  rintro _ _ t ⟨rfl, rfl, hinv'⟩
  exact .update (h.unbind hinv' hid hnone)

theorem remove (parentIno : ℕ) (name : Bytes) : Keeps R inv (remove setup parentIno name) := by
  refine .bind (h.lookup parentIno name) fun target m s hinv => ?_
  refine .bind ((h.discard hinv).mono ?_)
  rintro _ m₁ t₁ ⟨rfl, hinv₁, -, hnone⟩
  refine .bind (.bind (.update ?_))
  dsimp only
  split
  · rename_i id hid
    obtain ⟨hadmits, hkeeps⟩ := h.call (.deleteNode id) rfl rfl m₁ t₁ hinv₁
    refine .ok (.bind (.ask hadmits fun answer t₂ hanswer => ?_))
    have hinv₂ := hkeeps answer t₂ hanswer
    cases answer with
    | error e => exact .bind (.fail hinv₂)
    | ok _ => exact .bind (.ok (h.forget hinv₂ hid hnone))
  · exact .fail hinv₁

theorem forgetReplaced (ino : ℕ) : Keeps R inv (forgetReplaced setup ino) := by
  intro m s hinv
  refine .bind ((h.discard hinv).mono ?_)
  rintro _ m₁ t₁ ⟨rfl, hinv₁, -, hnone⟩
  refine .bind (.update ?_)
  dsimp only
  split
  · rename_i id hid
    exact h.forget hinv₁ hid hnone
  · exact .ok hinv₁

theorem rename (parentIno : ℕ) (name : Bytes) (newParentIno : ℕ) (newName : Bytes) :
    Keeps R inv (rename setup parentIno name newParentIno newName) := by
  refine .bind (h.lookup parentIno name) fun target => .bind (Upkeep.idFor _) fun id => ?_
  refine .bind (Upkeep.idFor _) fun newParentId => .bind (fun m s hinv => .attempt ?_) fun found => .bind ?_ fun _ => ?_
  · exact h.lookup newParentIno newName m s hinv
  · cases found with
    | ok replaced => exact Upkeep.ite (fun _ => h.forgetReplaced _) fun _ => .ok _
    | error e => exact .ok _
  · split
    · exact .fail _
    · exact Upkeep.request (h.call _ rfl rfl) fun _ => .bind (Upkeep.served _) fun _ => .ok _

theorem op (op : Op) : Keeps R inv (op.run setup) := by
  have hu := h.undisturbed
  cases op with
  | write ino offset data => exact .bind (h.write ino offset data) fun _ => .ok _
  | read ino offset size =>
    exact .bind (.bind (h.flush ino) fun _ => Upkeep.readRest hu setup ino offset size) fun _ => .ok _
  | getattr ino => exact .bind (.bind (h.flush ino) fun _ => Upkeep.stat hu ino) fun _ => .ok _
  | lookup parentIno name => exact .bind (h.lookup parentIno name) fun _ => .ok _
  | readdir ino => exact .bind (.bind h.flushAll fun _ => Upkeep.readdirRest hu ino) fun _ => .ok _
  | setattr ino req => exact .bind (h.setattr ino req) fun _ => .ok _
  | flush ino => exact .bind (h.flush ino) fun _ => .ok _
  | fsync ino => exact .bind (.bind (h.flush ino) fun _ => Upkeep.sync hu ino) fun _ => .ok _
  | create parentIno name kind mode uid gid => exact .bind (h.create parentIno name kind mode uid gid) fun _ => .ok _
  | remove parentIno name => exact .bind (h.remove parentIno name) fun _ => .ok _
  | rename parentIno name newParentIno newName =>
    exact .bind (h.rename parentIno name newParentIno newName) fun _ => .ok _

end Upheld

inductive Act
  | op (op : Op)
  | symlink (parentIno : ℕ) (name target : Bytes) (uid gid : ℕ)
  | readlink (ino : ℕ)

def Act.run (setup : Setup) : Act → Fs Result
  | .op call => call.run setup
  | .symlink parentIno name target uid gid => do pure (.attr (← Fuse.symlink parentIno name target uid gid))
  | .readlink ino => do pure (.bytes (← Fuse.readlink ino))

inductive Lives (setup : Setup) (R : Rules Client σ) (drifts : σ → σ → Prop) (opens : σ → Prop) : Mount → σ → Prop
  | start (rootId : Uuid) {s : σ} : opens s → Lives setup R drifts opens (.fresh rootId) s
  | step {m m' : Mount} {s t : σ} {act : Act} {out : Served Result} : Lives setup R drifts opens m s →
      Program.Ends R (act.run setup m) s (out, m') t → Lives setup R drifts opens m' t
  | drift {m : Mount} {s t : σ} : Lives setup R drifts opens m s → drifts s t → Lives setup R drifts opens m t

theorem Upheld.act (h : Upheld setup R inv) (act : Act) : Keeps R inv (act.run setup) := by
  cases act with
  | op op => exact h.op op
  | symlink parentIno name target uid gid => exact .bind (h.symlink parentIno name target uid gid) fun _ => .ok _
  | readlink ino => exact .bind (Upkeep.readlink h.undisturbed ino) fun _ => .ok _

theorem Lives.keeps (h : ∀ act : Act, Keeps R inv (act.run setup)) {drifts : σ → σ → Prop} {opens : σ → Prop}
    (hopens : ∀ rootId s, opens s → inv (.fresh rootId) s) (hdrifts : ∀ m s t, inv m s → drifts s t → inv m t)
    {m : Mount} {s : σ} (hlives : Lives setup R drifts opens m s) : inv m s := by
  induction hlives with
  | start rootId hs => exact hopens rootId _ hs
  | step _ hends ih => exact Routine.Meets.ends (h _ _ _ ih) hends
  | drift _ hdrift ih => exact hdrifts _ _ _ ih hdrift

end Dcfs.Fuse
