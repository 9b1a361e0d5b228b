import Dcfs.Fuse.Session
import Dcfs.Fuse.Shared

namespace Dcfs.Fuse

open Effects Fs Routine Tables

def Fetchless : ClientCall → Prop
  | .readFileCacheable _ _ _ => False
  | .storeBlock _ _ => False
  | _ => True

variable (setup : Setup)

theorem idFor_issues {allowed : ClientCall → Prop} (ino : ℕ) : Issues allowed (idFor ino) := by
  refine .bind (.update _) fun m => ?_
  split
  · exact .ok _
  · exact .fail _

theorem served_issues {allowed : ClientCall → Prop} {α : Type} (a : Served α) : Issues allowed (Fs.served a) := by
  cases a with
  | ok a => exact .ok a
  | error e => exact .fail e

theorem invalidate_issues (nodeId : Uuid) : Issues Fetchless (invalidate setup nodeId) :=
  .ite (fun _ => .ask trivial) fun _ => .ok _

theorem sendDrained_issues (ino : ℕ) (run : PendingWrite) :
    Issues Fetchless (sendDrained setup ino run) := by
  refine .bind (idFor_issues ino) fun nodeId => .bind ?_ fun _ => invalidate_issues setup nodeId
  refine .bind (.ask trivial) fun answer => .bind (served_issues answer) fun _ => ?_
  unfold finish
  split
  · exact .ask trivial
  · exact .ok _

theorem flush_issues (ino : ℕ) : Issues Fetchless (flush setup ino) := by
  refine .bind (.update _) fun m => ?_
  split
  · exact .bind (.update _) fun _ => sendDrained_issues setup ino _
  · exact .ok _

theorem sendAll_issues (runs : List (ℕ × PendingWrite)) :
    Issues Fetchless (sendAll setup runs) := by
  induction runs with
  | nil => exact .ok _
  | cons head rest ih => exact .bind (sendDrained_issues setup head.1 head.2) fun _ => ih

theorem flushAll_issues : Issues Fetchless (flushAll setup) :=
  .bind (.update _) fun _ => .bind (.update _) fun _ => sendAll_issues setup _

theorem stat_issues (ino : ℕ) : Issues Fetchless (stat ino) :=
  .bind (idFor_issues ino) fun _ => .bind (.ask trivial) fun answer => .bind (served_issues answer) fun _ => .update _

theorem findName_issues (parentIno : ℕ) (name : Bytes) : Issues Fetchless (findName parentIno name) :=
  .bind (idFor_issues parentIno) fun _ => .bind (.ask trivial) fun answer => .bind (served_issues answer) fun _ =>
    .update _

theorem childrenFrom_issues (parentId : Uuid) (pages offset : ℕ) :
    Issues Fetchless (childrenFrom parentId pages offset) := by
  induction pages generalizing offset with
  | zero => exact .fail _
  | succ pages ih =>
    refine .bind (.ask trivial) fun answer => .bind (served_issues answer) fun _ => .ite (fun _ => .ok _) fun _ => ?_
    exact .bind (ih _) fun _ => .ok _

theorem entriesOf_issues {allowed : ClientCall → Prop} (children : List NodeResponse) :
    Issues allowed (entriesOf children) := by
  induction children with
  | nil => exact .ok _
  | cons child rest ih => exact .bind (.update _) fun _ => .bind ih fun _ => .ok _

theorem readdirRest_issues (ino : ℕ) : Issues Fetchless (readdirRest ino) := by
  refine .bind (idFor_issues ino) fun id => .bind (.ask trivial) fun answer =>
    .bind (served_issues answer) fun node => ?_
  refine .ite (fun _ => .fail _) fun _ => .bind ?_ fun _ => ?_
  · cases node.parentId with
    | some parentId => exact .update _
    | none => exact .ok _
  · exact .bind (childrenFrom_issues _ _ _) fun children => .bind (entriesOf_issues children) fun _ => .ok _

theorem readExactly_issues (nodeId : Uuid) (offset expected fileSize : ℕ) :
    Issues Fetchless (readExactly nodeId offset expected fileSize) :=
  .bind (.ask trivial) fun answer => .bind (served_issues answer) fun _ => .ite (fun _ => .fail _) fun _ => .ok _

theorem readMeta_issues (ino : ℕ) (nodeId : Uuid) : Issues Fetchless (readMeta ino nodeId) := by
  refine .bind (.update _) fun m => ?_
  split
  · exact .ok _
  · exact .bind (.ask trivial) fun answer => .bind (served_issues answer) fun _ => .bind (.update _) fun _ => .ok _

structure Coherent (s : Shared) : Prop where
  cached : ∀ {key data}, s.cache.files.lookup key = some data → s.server.IsBlock key data
  served : ∀ {key data}, (key, data) ∈ s.served → s.server.IsBlock key data

variable {setup : Setup} {m : Mount} {s t : Shared} {allowed : Shared → Uuid → Prop}

theorem isBlock_remote {server server' : Remote} (hsteps : Relation.ReflTransGen Remote.Step server server') {key : Key}
    {data : Bytes} (h : server.IsBlock key data) : server'.IsBlock key data := by
  induction hsteps with
  | refl => exact h
  | tail _ hstep ih => exact hstep.isBlock ih

theorem Coherent.remote (h : Coherent s) {server : Remote}
    (hsteps : Relation.ReflTransGen Remote.Step s.server server) :
    Coherent { s with server := server } :=
  ⟨fun hc => isBlock_remote hsteps (h.cached hc), fun hs => isBlock_remote hsteps (h.served hs)⟩

theorem Coherent.loaded (h : Coherent s) (key : Key) : Coherent (s.loaded key) := by
  refine ⟨fun {key' data} hc => ?_, fun {key' data} hs => ?_⟩
  · rw [Shared.loaded, BlockCache.load_files] at hc
    exact h.cached hc
  · rw [Shared.loaded] at hs
    rcases List.mem_append.mp hs with hnew | hold
    · rw [Option.mem_toList, Option.map_eq_some_iff] at hnew
      obtain ⟨data', hload, heq⟩ := hnew
      cases heq
      exact h.cached (BlockCache.load_eq_some hload)
    · exact h.served hold

theorem Coherent.answered (h : Coherent s) {c : ClientCall} (hc : Fetchless c) {r : c.Reply}
    (ha : s.Answers allowed c r t) : Coherent t := by
  cases c with
  | readFileCacheable _ _ _ | storeBlock _ _ => cases hc
  | getNode _ | findChild _ _ | listChildren _ _ _ | readFile _ _ _ =>
    obtain ⟨rfl, -⟩ := ha
    exact h
  | writeFile nodeId offset data =>
    cases r with
    | error e =>
      cases ha
      exact h
    | ok n =>
      cases ha
      have hstep : Relation.ReflTransGen Remote.Step s.server (s.server.write nodeId offset data) :=
        .single (.write _ _ _ _)
      exact h.remote hstep
  | loadBlock key =>
    obtain ⟨-, rfl⟩ := ha
    exact h.loaded key
  | invalidateBlocks nodeId =>
    cases ha
    exact ⟨fun hc => h.cached (BlockCache.lookup_invalidate hc).2, h.served⟩
  | _ =>
    cases ha
    exact h

def coherently (allowed : Shared → Uuid → Prop) : Rules Client Shared := (sharing allowed).guarded Coherent

theorem keeps_coherent {α : Type} {x : Fs α} (hx : Issues Fetchless x) :
    Keeps (coherently allowed) (fun _ s => Coherent s) x := by
  refine hx.keeps fun c hc s h => ⟨⟨trivial, h⟩, ?_⟩
  rintro r t ⟨server, hsteps, hanswers⟩
  exact (h.remote hsteps).answered hc hanswers

theorem loadBlocks_coherent (nodeId versionId : Uuid) {indices : List ℕ} (h : Coherent s)
    (hasked : s.asked = some (nodeId, versionId) ∨ indices ≠ []) :
    Meets (coherently allowed) (loadBlocks nodeId versionId indices)
      (fun _ _ t => Coherent t ∧ t.asked = some (nodeId, versionId)) m s := by
  induction indices generalizing s with
  | nil => exact .ok ⟨h, hasked.resolve_right fun hne => hne rfl⟩
  | cons index rest ih =>
    refine .bind (.ask ⟨trivial, h⟩ ?_)
    rintro _ t ⟨server, hsteps, rfl, rfl⟩
    refine .bind ((ih ((h.remote hsteps).loaded _) (.inl rfl)).mono ?_)
    rintro (e | blocks) m' t' hend
    · exact hend
    · exact .ok hend

theorem Coherent.fetched (h : Coherent s) {nodeId versionId : Uuid} {index : ℕ}
    (hasked : s.asked = some (nodeId, versionId)) (hallowed : AsCurrent s nodeId) :
    Coherent (s.fetched nodeId (index * blockSize) blockSize)
      ∧ ((s.server.read nodeId (index * blockSize) blockSize).2 = true →
        s.server.IsBlock ⟨nodeId, versionId, index⟩ (s.server.read nodeId (index * blockSize) blockSize).1) := by
  have hblock : (s.server.read nodeId (index * blockSize) blockSize).2 = true →
      s.server.IsBlock ⟨nodeId, versionId, index⟩ (s.server.read nodeId (index * blockSize) blockSize).1 := by
    intro hclosed
    have hnone : s.server.working.lookup nodeId = none := Option.isNone_iff_eq_none.mp hclosed
    exact Remote.isBlock_read index (hallowed versionId hasked hnone) hnone
  refine ⟨?_, hblock⟩
  rw [Shared.fetched, hasked]
  have hindex : index * blockSize / blockSize = index := Nat.mul_div_cancel _ (by decide)
  cases hread : s.server.read nodeId (index * blockSize) blockSize with
  | mk data closed =>
    cases closed with
    | false => exact h
    | true =>
      refine ⟨h.cached, fun {key data'} hmem => ?_⟩
      rcases List.mem_cons.mp hmem with heq | hold
      · cases heq
        rw [hread] at hblock
        rw [hindex]
        exact hblock rfl
      · exact h.served hold

def Keepable (nodeId versionId : Uuid) (answers : List (ℕ × Served (Bytes × Bool))) (server : Remote) : Prop :=
  ∀ index data, (index, Except.ok (data, true)) ∈ answers → server.IsBlock ⟨nodeId, versionId, index⟩ data

theorem fetchBlocks_coherent {nodeId versionId : Uuid} {indices : List ℕ} (h : Coherent s)
    (hasked : s.asked = some (nodeId, versionId)) :
    Meets (coherently AsCurrent) (fetchBlocks nodeId indices)
      (fun out _ t => Coherent t ∧ Relation.ReflTransGen Remote.Step s.server t.server
        ∧ ∀ answers, out = .ok answers → Keepable nodeId versionId answers t.server) m s := by
  induction indices generalizing s with
  | nil => exact .ok ⟨h, .refl, fun _ hout => by cases hout; exact fun _ _ hmem => absurd hmem List.not_mem_nil⟩
  | cons index rest ih =>
    refine .bind (.ask ⟨trivial, h⟩ ?_)
    rintro answer t ⟨server, hsteps, hanswer⟩
    have hmid : Coherent t ∧ t.asked = some (nodeId, versionId) ∧ t.server = server
        ∧ ∀ data, answer = .ok (data, true) → server.IsBlock ⟨nodeId, versionId, index⟩ data := by
      cases answer with
      | error e =>
        cases hanswer
        exact ⟨h.remote hsteps, hasked, rfl, nofun⟩
      | ok fetched =>
        obtain ⟨hallowed, hread, rfl⟩ := hanswer
        obtain ⟨hcoherent, hblock⟩ := (h.remote hsteps).fetched hasked hallowed
        refine ⟨hcoherent, (Shared.fetched_asked ..).trans hasked, Shared.fetched_server .., ?_⟩
        rintro data heq
        cases heq
        rw [← hread] at hblock
        exact hblock rfl
    obtain ⟨hcoherent, hasked', rfl, hfirst⟩ := hmid
    refine .bind ((ih hcoherent hasked').mono ?_)
    rintro (e | answers) m' t' ⟨hcoherent', hsteps', hrest⟩
    · exact ⟨hcoherent', hsteps.trans hsteps', nofun⟩
    · refine .ok ⟨hcoherent', hsteps.trans hsteps', ?_⟩
      rintro _ hout index' data hmem
      cases hout
      rcases List.mem_cons.mp hmem with heq | hold
      · cases heq
        exact isBlock_remote hsteps' (hfirst data rfl)
      · exact hrest answers rfl index' data hold

theorem keepBlocks_coherent {nodeId versionId : Uuid} {answers : List (ℕ × Served (Bytes × Bool))} (h : Coherent s)
    (hkeep : Keepable nodeId versionId answers s.server) :
    Meets (coherently allowed) (keepBlocks nodeId versionId answers) (fun _ _ t => Coherent t) m s := by
  induction answers generalizing s with
  | nil => exact .ok h
  | cons answer rest ih =>
    obtain ⟨index, answer⟩ := answer
    have hlater : ∀ {server}, Relation.ReflTransGen Remote.Step s.server server →
      Keepable nodeId versionId rest server :=
      fun hsteps index' data hmem => isBlock_remote hsteps (hkeep index' data (List.mem_cons_of_mem _ hmem))
    cases answer with
    | error e => exact .bind (.fail h)
    | ok fetched =>
      obtain ⟨data, closed⟩ := fetched
      have hrest : ∀ {t : Shared}, Coherent t → Keepable nodeId versionId rest t.server →
          Meets (coherently allowed) (do
            let blocks ← keepBlocks nodeId versionId rest
            pure ((index, data) :: blocks)) (fun _ _ t => Coherent t) m t := by
        intro t ht hk
        refine .bind ((ih ht hk).mono ?_)
        rintro (e | blocks) m' t' hend
        · exact hend
        · exact .ok hend
      refine .bind (.ok (.bind ?_))
      cases closed with
      | false => exact .ok (hrest h (hlater .refl))
      | true =>
        refine .ask ⟨trivial, h⟩ ?_
        rintro _ t ⟨server, hsteps, rfl | rfl⟩
        · refine hrest ⟨fun hc => ?_, (h.remote hsteps).served⟩ (hlater hsteps)
          rcases BlockCache.lookup_store hc with ⟨rfl, rfl⟩ | hold
          · exact isBlock_remote hsteps (hkeep index _ List.mem_cons_self)
          · exact (h.remote hsteps).cached hold
        · exact hrest (h.remote hsteps) (hlater hsteps)

theorem readBlocks_coherent (nodeId versionId : Uuid) (offset size : ℕ) (h : Coherent s) :
    Meets (coherently AsCurrent) (readBlocks setup nodeId versionId offset size) (fun _ _ t => Coherent t) m s := by
  unfold readBlocks
  split_ifs
  · exact .ok h
  · have hsome : List.range' (offset / blockSize) ((offset + size - 1) / blockSize - offset / blockSize + 1) ≠ [] :=
      List.cons_ne_nil _ _
    refine .bind ((loadBlocks_coherent nodeId versionId h (.inr hsome)).mono ?_)
    rintro (e | loaded) m₁ t₁ ⟨h₁, hasked⟩
    · exact h₁
    refine .bind ((fetchBlocks_coherent h₁ hasked).mono ?_)
    rintro (e | answers) m₂ t₂ ⟨h₂, -, hkeep⟩
    · exact h₂
    refine .bind ((keepBlocks_coherent h₂ (hkeep answers rfl)).mono ?_)
    rintro (e | blocks) m₃ t₃ h₃
    · exact h₃
    · exact .ok h₃

theorem readRest_coherent (ino offset size : ℕ) :
    Keeps (coherently AsCurrent) (fun _ s => Coherent s) (readRest setup ino offset size) := by
  refine .bind (keeps_coherent (idFor_issues ino)) fun nodeId => ?_
  refine .bind (keeps_coherent (readMeta_issues ino nodeId)) fun (versionId, fileSize) => ?_
  have hdirect : ∀ expected, Keeps (coherently AsCurrent) (fun _ s => Coherent s)
      (readExactly nodeId offset expected fileSize) :=
    fun expected => keeps_coherent (readExactly_issues nodeId offset expected fileSize)
  dsimp only
  split_ifs
  · exact .ok _
  · split
    · refine .bind (fun _ _ h => readBlocks_coherent nodeId _ offset _ h) fun out => ?_
      split_ifs
      · exact .bind (keeps_coherent (invalidate_issues setup nodeId)) fun _ => hdirect _
      · exact .ok _
    · exact hdirect _

theorem Op.coherent {op : Op} (hop : op.isLook = true) :
    Keeps (coherently AsCurrent) (fun _ s => Coherent s) (op.run setup) := by
  have hflush : ∀ ino, Keeps (coherently AsCurrent) (fun _ s => Coherent s) (Fuse.flush setup ino) :=
    fun ino => keeps_coherent (flush_issues setup ino)
  cases op with
  | read ino offset size =>
    exact .bind (.bind (hflush ino) fun _ => readRest_coherent ino offset size) fun _ => .ok _
  | getattr ino => exact keeps_coherent (.bind (.bind (flush_issues setup ino) fun _ => stat_issues ino) fun _ => .ok _)
  | lookup parentIno name =>
    exact keeps_coherent (.bind (.bind (flushAll_issues setup) fun _ => findName_issues parentIno name) fun _ => .ok _)
  | readdir ino =>
    exact keeps_coherent (.bind (.bind (flushAll_issues setup) fun _ => readdirRest_issues ino) fun _ => .ok _)
  | _ => cases hop

end Dcfs.Fuse
