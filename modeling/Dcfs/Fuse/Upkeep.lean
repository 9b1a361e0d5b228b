import Dcfs.Fuse.Blocks
import Dcfs.Fuse.Session

namespace Dcfs.Fuse

open Effects Fs Tables Routine

def ClientCall.isAside : ClientCall → Bool
  | .getNode _ => true
  | .findChild _ _ => true
  | .listChildren _ _ _ => true
  | .readFile _ _ _ => true
  | .readFileCacheable _ _ _ => true
  | .syncFile _ => true
  | .newUuid => true
  | .loadBlock _ => true
  | .storeBlock _ _ => true
  | .invalidateBlocks _ => true
  | _ => false

def ClientCall.isStore : ClientCall → Bool
  | .storeBlock _ _ => true
  | _ => false

def ClientCall.isSend : ClientCall → Bool
  | .writeFile _ _ _ => true
  | .finishRun _ => true
  | .invalidateBlocks _ => true
  | _ => false

inductive Mount.Learns (m : Mount) : Mount → Prop
  | number (id : Uuid) : Learns m (m.inoFor id).2
  | remember (ino : ℕ) (node : NodeResponse) : Learns m (m.remember ino node)
  | reach (ino stop : ℕ) : Learns m (m.reach ino stop)
  | truncated (ino size : ℕ) : Learns m (m.truncated ino size)

variable {σ α : Type} {R : Rules Client σ} {inv : Mount → σ → Prop}

def Allows (R : Rules Client σ) (inv : Mount → σ → Prop) (c : ClientCall) : Prop :=
  ∀ m s, inv m s → R.admits c s ∧ ∀ r t, R.outcome c s r t → inv m t

/-- Neither calls on the side nor what is learnt from them touch `inv`. Blocks are kept only as they came. -/
structure Undisturbed (R : Rules Client σ) (inv : Mount → σ → Prop) : Prop where
  aside : ∀ c : ClientCall, c.isAside = true → c.isStore = false → Allows R inv c
  supplies : ∀ nodeId versionId, ∃ right, Supplies R inv nodeId versionId right
  learns : ∀ {m m' s}, m.Learns m' → inv m s → inv m' s

theorem Supplies.of_aside (h : ∀ c : ClientCall, c.isAside = true → Allows R inv c) (nodeId versionId : Uuid) :
    Supplies R inv nodeId versionId fun _ _ => True where
  load index m s hinv := by
    obtain ⟨hadmits, hkeeps⟩ := h (.loadBlock ⟨nodeId, versionId, index⟩) rfl m s hinv
    exact ⟨hadmits, fun r t ho => ⟨hkeeps r t ho, fun _ _ => trivial⟩⟩
  fetch index m s hinv := by
    obtain ⟨hadmits, hkeeps⟩ := h (.readFileCacheable nodeId (index * blockSize) blockSize) rfl m s hinv
    exact ⟨hadmits, fun r t ho => ⟨hkeeps r t ho, fun _ _ _ => trivial⟩⟩
  store _ hinv := h (.storeBlock _ _) rfl _ _ hinv

theorem Undisturbed.of_aside (haside : ∀ c : ClientCall, c.isAside = true → Allows R inv c)
    (hlearns : ∀ {m m' s}, m.Learns m' → inv m s → inv m' s) : Undisturbed R inv :=
  ⟨fun c hc _ => haside c hc, fun nodeId versionId => ⟨_, .of_aside haside nodeId versionId⟩, hlearns⟩

theorem idFor_bound {m : Mount} {s : σ} {ino : ℕ} {nodeId : Uuid} (h : m.byIno.lookup ino = some nodeId) :
    Routine.Meets R (idFor ino) (fun out m' t => out = .ok nodeId ∧ m' = m ∧ t = s) m s := by
  refine .bind (.update ?_)
  dsimp only
  rw [h]
  exact .ok ⟨rfl, rfl, rfl⟩

namespace Upkeep

theorem served (a : Served α) : Keeps R inv (Fs.served a) := by
  cases a with
  | ok a => exact .ok a
  | error e => exact .fail e

theorem look : Keeps R inv Fs.look := .update fun _ _ h => h

theorem ite {c : Prop} [Decidable c] {x y : Fs α} (hx : c → Keeps R inv x) (hy : ¬c → Keeps R inv y) :
    Keeps R inv (if c then x else y) := by
  split_ifs with hc
  · exact hx hc
  · exact hy hc

theorem idFor (ino : ℕ) : Keeps R inv (idFor ino) := by
  refine .bind look fun m => ?_
  split
  · exact .ok _
  · exact .fail _

theorem request {c : ClientCall} {f : c.Reply → Fs α} (hc : Allows R inv c) (hf : ∀ answer, Keeps R inv (f answer)) :
    Keeps R inv (Fs.ask c >>= f) :=
  .bind (.ask hc) hf

theorem finish_done {setup : Setup} (h : ∀ path, Allows R inv (.finishRun path)) (run : PendingWrite) {m : Mount}
    {s : σ}
    (hinv : inv m s) : Meets R (Fuse.finish setup run) (fun out m' t => out = .ok () ∧ inv m' t) m s := by
  unfold Fuse.finish
  split
  · rename_i path _ _
    obtain ⟨hadmits, hkeeps⟩ := h path m s hinv
    exact .ask hadmits fun r t hr => ⟨rfl, hkeeps r t hr⟩
  · exact .ok ⟨rfl, hinv⟩

theorem dropBlocks_done {setup : Setup} {nodeId : Uuid} (h : Allows R inv (.invalidateBlocks nodeId)) {m : Mount}
    {s : σ}
    (hinv : inv m s) : Meets R (Fuse.invalidate setup nodeId) (fun out m' t => out = .ok () ∧ inv m' t) m s := by
  unfold Fuse.invalidate
  split_ifs
  · obtain ⟨hadmits, hkeeps⟩ := h m s hinv
    exact .ask hadmits fun r t hr => ⟨rfl, hkeeps r t hr⟩
  · exact .ok ⟨rfl, hinv⟩

section

variable {setup : Setup} (h : ∀ c : ClientCall, c.isSend = true → Allows R inv c)

include h

theorem send (nodeId : Uuid) (run : PendingWrite) : Keeps R inv (send setup nodeId run) :=
  request (h _ rfl) fun _ => .bind (served _) fun _ _ _ hinv =>
    (finish_done (fun _ => h _ rfl) run hinv).mono fun _ _ _ hend => hend.2

theorem sendDrained (ino : ℕ) (run : PendingWrite) : Keeps R inv (sendDrained setup ino run) :=
  .bind (idFor ino) fun nodeId => .bind (send h nodeId run) fun _ _ _ hinv =>
    (dropBlocks_done (h _ rfl) hinv).mono fun _ _ _ hend => hend.2

theorem sendAll (runs : List (ℕ × PendingWrite)) : Keeps R inv (sendAll setup runs) := by
  induction runs with
  | nil => exact .ok _
  | cons head rest ih => exact .bind (sendDrained h head.1 head.2) fun _ => ih

end

section

variable (h : Undisturbed R inv)

include h

theorem attrOf (node : NodeResponse) : Keeps R inv (attrOf node) :=
  .update fun _ _ hinv => h.learns (.remember _ node) (h.learns (.number node.id) hinv)

theorem inoFor (id : Uuid) : Keeps R inv (inoFor id) := .update fun _ _ hinv => h.learns (.number id) hinv

theorem entriesOf (children : List NodeResponse) : Keeps R inv (entriesOf children) := by
  induction children with
  | nil => exact .ok _
  | cons child rest ih => exact .bind (inoFor h _) fun _ => .bind ih fun _ => .ok _

theorem invalidate (setup : Setup) (nodeId : Uuid) : Keeps R inv (invalidate setup nodeId) :=
  ite (fun _ => .ask (h.aside _ rfl rfl)) fun _ => .ok _

theorem childrenFrom (parentId : Uuid) (pages offset : ℕ) : Keeps R inv (childrenFrom parentId pages offset) := by
  induction pages generalizing offset with
  | zero => exact .fail _
  | succ pages ih =>
    refine request (h.aside _ rfl rfl) fun _ => .bind (served _) fun _ => ite (fun _ => .ok _) fun _ => ?_
    exact .bind (ih _) fun _ => .ok _

theorem readExactly (nodeId : Uuid) (offset expected fileSize : ℕ) :
    Keeps R inv (readExactly nodeId offset expected fileSize) :=
  request (h.aside _ rfl rfl) fun _ => .bind (served _) fun _ => ite (fun _ => .fail _) fun _ => .ok _

theorem readBlocks (setup : Setup) (nodeId versionId : Uuid) (offset size : ℕ) :
    Keeps R inv (readBlocks setup nodeId versionId offset size) := by
  obtain ⟨right, hsupplies⟩ := h.supplies nodeId versionId
  intro m s hinv
  exact (hsupplies.readBlocks offset size hinv).mono fun _ _ _ hend => hend.1

theorem readMeta (ino : ℕ) (nodeId : Uuid) : Keeps R inv (readMeta ino nodeId) := by
  refine .bind look fun m => ?_
  split
  · exact .ok _
  · refine request (h.aside _ rfl rfl) fun _ => .bind (served _) fun node =>
      .bind (.update fun _ _ hinv => ?_) fun _ => .ok _
    exact h.learns (.remember ino node) hinv

theorem readRest (setup : Setup) (ino offset size : ℕ) : Keeps R inv (readRest setup ino offset size) := by
  refine .bind (idFor ino) fun nodeId => .bind (readMeta h ino nodeId) fun (versionId, fileSize) => ?_
  refine ite (fun _ => .ok _) fun _ => ?_
  split
  · refine .bind (readBlocks h setup _ _ _ _) fun _ => ite (fun _ => ?_) fun _ => .ok _
    exact .bind (invalidate h setup nodeId) fun _ => readExactly h _ _ _ _
  · exact readExactly h _ _ _ _

theorem readdirRest (ino : ℕ) : Keeps R inv (readdirRest ino) := by
  refine .bind (idFor ino) fun id => request (h.aside _ rfl rfl) fun _ => .bind (served _) fun node => ?_
  refine ite (fun _ => .fail _) fun _ => .bind ?_ fun _ => ?_
  · cases node.parentId with
    | some parentId => exact inoFor h parentId
    | none => exact .ok _
  · exact .bind (childrenFrom h _ _ _) fun _ => .bind (entriesOf h _) fun _ => .ok _

theorem patch (hpatch : ∀ id req, Allows R inv (.patchNode id req)) (setup : Setup) (ino : ℕ)
    (req : PatchNodeRequest) : Keeps R inv (patch setup ino req) := by
  refine .bind ?_ fun _ => .bind (idFor ino) fun id => .bind (invalidate h setup id) fun _ => ?_
  · cases req.size with
    | some size => exact .update fun _ _ hinv => h.learns (.truncated ino size) hinv
    | none => exact .ok _
  · exact request (hpatch _ _) fun _ => .bind (served _) fun node => attrOf h node

theorem stat (ino : ℕ) : Keeps R inv (stat ino) :=
  .bind (idFor ino) fun _ => request (h.aside _ rfl rfl) fun _ => .bind (served _) fun node => attrOf h node

theorem findName (parentIno : ℕ) (name : Bytes) : Keeps R inv (findName parentIno name) :=
  .bind (idFor parentIno) fun _ => request (h.aside _ rfl rfl) fun _ => .bind (served _) fun child => attrOf h child

theorem sync (ino : ℕ) : Keeps R inv (sync ino) :=
  .bind (idFor ino) fun _ => request (h.aside _ rfl rfl) fun _ => served _

theorem readlink (ino : ℕ) : Keeps R inv (readlink ino) := by
  refine .bind (idFor ino) fun _ => request (h.aside _ rfl rfl) fun _ => .bind (served _) fun node => ?_
  split
  · exact .ok _
  · exact .fail _

end

end Upkeep

def Still (R : Rules Client σ) (s : σ) (c : ClientCall) : Prop :=
  R.admits c s ∧ ∀ r t, R.outcome c s r t → t = s

def Attends (R : Rules Client σ) (s : σ) : Prop := ∀ c : ClientCall, c.isAside = true → Still R s c

def Calm (R : Rules Client σ) (s : σ) (x : Fs α) : Prop :=
  ∀ m, m.Sane → Routine.Meets R x (fun _ m' t => m.Later m' ∧ t = s) m s

variable {s : σ}

theorem Calm.of_keeps {x : Fs α} (hx : ∀ m₀ : Mount, Routine.Keeps R (fun m t => m₀.Later m ∧ t = s) x) : Calm R s x :=
  fun m h => hx m m s ⟨.refl h, rfl⟩

theorem Mount.Learns.later {m m' : Mount} (h : m.Learns m') (hm : m.Sane) : m.Later m' := by
  cases h with
  | number id => exact hm.inoFor id
  | remember ino node => exact hm.later_of ⟨rfl, rfl, rfl⟩ rfl
  | reach ino stop => exact hm.later_of ⟨rfl, rfl, rfl⟩ rfl
  | truncated ino size => exact hm.later_of ⟨rfl, rfl, rfl⟩ rfl

section

variable (hR : Attends R s)

include hR

theorem Attends.undisturbed (m₀ : Mount) : Undisturbed R fun m t => m₀.Later m ∧ t = s := by
  refine .of_aside (fun c hc => ?_) fun hlearns hinv => ⟨hinv.1.trans (hlearns.later hinv.1.sane), hinv.2⟩
  rintro m _ ⟨hlater, rfl⟩
  exact ⟨(hR c hc).1, fun r t hr => ⟨hlater, (hR c hc).2 r t hr⟩⟩

theorem invalidate_still (setup : Setup) (nodeId : Uuid) (m : Mount) :
    Routine.Meets R (invalidate setup nodeId) (fun out m' t => out = .ok () ∧ m' = m ∧ t = s) m s := by
  unfold invalidate
  split_ifs
  · exact .ask (hR _ rfl).1 fun r t hr => ⟨rfl, rfl, (hR _ rfl).2 r t hr⟩
  · exact .ok ⟨rfl, rfl, rfl⟩

theorem readRest_calm (setup : Setup) (ino offset size : ℕ) : Calm R s (readRest setup ino offset size) :=
  .of_keeps fun m₀ => Upkeep.readRest (hR.undisturbed m₀) setup ino offset size

theorem readdirRest_calm (ino : ℕ) : Calm R s (readdirRest ino) :=
  .of_keeps fun m₀ => Upkeep.readdirRest (hR.undisturbed m₀) ino

theorem patch_calm (hpatch : ∀ id req, Still R s (.patchNode id req)) (setup : Setup) (ino : ℕ)
    (req : PatchNodeRequest) : Calm R s (patch setup ino req) := by
  refine .of_keeps fun m₀ => Upkeep.patch (hR.undisturbed m₀) (fun id req => ?_) setup ino req
  rintro m _ ⟨hlater, rfl⟩
  exact ⟨(hpatch id req).1, fun r t hr => ⟨hlater, (hpatch id req).2 r t hr⟩⟩

theorem stat_calm (ino : ℕ) : Calm R s (stat ino) := .of_keeps fun m₀ => Upkeep.stat (hR.undisturbed m₀) ino

theorem findName_calm (parentIno : ℕ) (name : Bytes) : Calm R s (findName parentIno name) :=
  .of_keeps fun m₀ => Upkeep.findName (hR.undisturbed m₀) parentIno name

theorem sync_calm (ino : ℕ) : Calm R s (sync ino) := .of_keeps fun m₀ => Upkeep.sync (hR.undisturbed m₀) ino

end

end Dcfs.Fuse
