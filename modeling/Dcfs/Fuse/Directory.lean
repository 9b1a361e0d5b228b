import Dcfs.Fuse.Readdir
import Dcfs.Fuse.Upkeep
import Dcfs.Names.Calls

namespace Dcfs

open Exec

variable (cfg : Config) (faults : Faults) (w : World)

theorem exec_listChildren (parentId : Uuid) (limit offset : ℕ) :
    exec cfg faults (listChildren parentId (some limit) (some offset)) w
      = (.ok ⟨((w.listed cfg.backend parentId).drop offset).take limit,
          (((w.listed cfg.backend parentId).drop offset).take limit).length == limit⟩, w) := by
  rw [listChildren, exec_ask]
  rfl

theorem exec_getNode_ok {id : Uuid} {node : NodeRecord} :
    (exec cfg faults (getNode id) w).1 = .ok node ↔ w.nodes.lookup id = some node := by
  rw [getNode, exec_ask, perform, answer, World.getNode]
  cases w.nodes.lookup id with
  | some found => simp
  | none => simp

namespace Fuse

open Effects Fs Tables Routine

/--
A server that answers for its nodes as they are at the time. What becomes of the other requests is
left open, and so is what they do to it.
-/
def directories : Rules Client World where
  admits _ _ := True
  outcome
    | .getNode id, w, r, t => t = w ∧ ∀ node, r = .ok node →
      ∃ record, (exec cfg noFaults (Dcfs.getNode id) w).1 = .ok record ∧ node = nodeToResponse record
    | .listChildren parentId limit offset, w, r, t => t = w ∧ ∀ nodes, r = .ok nodes →
      ∃ response, (exec cfg noFaults (Dcfs.listChildren parentId (some limit) (some offset)) w).1 = .ok response
        ∧ nodes = response.children.map nodeToResponse
    | _, _, _, _ => True

def Mount.numberOf (m : Mount) (id : Uuid) : ℕ := (m.byId.lookup id).getD 0

def entryOf (m : Mount) (child : NodeRecord) : DirEntry := ⟨m.numberOf child.id, child.kind, child.name⟩

def listing (m : Mount) (ino : ℕ) (id : Uuid) : List DirEntry :=
  match w.nodes.lookup id with
  | none => []
  | some node => { ino := ino, kind := .directory, name := [0x2e] }
    :: { ino := (node.parentId.map m.numberOf).getD ino, kind := .directory, name := [0x2e, 0x2e] }
    :: (w.listed cfg.backend id).map (entryOf m)

def Mount.Numbers (m m' : Mount) : Prop := ∀ {id ino}, m.byId.lookup id = some ino → m'.byId.lookup id = some ino

variable {cfg w} {m m' : Mount} {setup : Setup} {ino : ℕ} {id : Uuid}

theorem Mount.inoFor_numbers (m : Mount) (id : Uuid) : m.Numbers (m.inoFor id).2 := by
  intro other ino hother
  unfold Mount.inoFor
  cases hid : m.byId.lookup id with
  | some number => exact hother
  | none =>
    have hne : other ≠ id := by
      rintro rfl
      rw [hother] at hid
      cases hid
    simp only [Mount.bind]
    rw [lookup_insert, if_neg hne, hother]

theorem Mount.inoFor_lookup (m : Mount) (id : Uuid) : (m.inoFor id).2.byId.lookup id = some (m.inoFor id).1 := by
  unfold Mount.inoFor
  cases hid : m.byId.lookup id with
  | some number => exact hid
  | none =>
    simp only [Mount.bind]
    rw [lookup_insert, if_pos rfl]

theorem Mount.Numbers.numberOf {number : ℕ} (h : m.Numbers m') (hid : m.byId.lookup id = some number) :
    m'.numberOf id = number := by rw [Mount.numberOf, h hid, Option.getD_some]

theorem childrenFrom_meets (parentId : Uuid) (pages offset : ℕ) :
    Meets (directories cfg) (childrenFrom parentId pages offset) (fun out m' t => m' = m ∧ t = w
      ∧ ∀ nodes, out = .ok nodes → nodes = ((w.listed cfg.backend parentId).drop offset).map nodeToResponse) m w := by
  induction pages generalizing offset with
  | zero => exact .fail ⟨rfl, rfl, fun _ h => by cases h⟩
  | succ pages ih =>
    refine .bind (.ask trivial ?_)
    rintro r t ⟨rfl, hr⟩
    cases r with
    | error e => exact .bind (.fail ⟨rfl, rfl, fun _ h => by cases h⟩)
    | ok nodes =>
      obtain ⟨response, hresponse, hnodes⟩ := hr nodes rfl
      rw [exec_listChildren] at hresponse
      cases hresponse
      refine .bind (.ok ?_)
      dsimp only at hnodes ⊢
      subst hnodes
      split_ifs with hshort
      · refine .ok ⟨rfl, rfl, fun nodes h => ?_⟩
        cases h
        rw [List.length_map, List.length_take] at hshort
        rw [List.take_of_length_le (by omega)]
      · refine .bind ((ih (offset + page)).mono ?_)
        rintro out m' t ⟨rfl, rfl, hrest⟩
        cases out with
        | error e => exact ⟨rfl, rfl, fun _ h => by cases h⟩
        | ok rest =>
          refine .ok ⟨rfl, rfl, fun nodes h => ?_⟩
          cases h
          rw [hrest rest rfl, ← List.map_append, ← List.drop_drop, List.take_append_drop]

theorem entriesOf_meets (records : List NodeRecord) :
    Meets (directories cfg) (entriesOf (records.map nodeToResponse)) (fun out m' t => t = w ∧ m.Numbers m'
      ∧ ∀ entries, out = .ok entries → entries = records.map (entryOf m')) m w := by
  induction records generalizing m with
  | nil => exact .ok ⟨rfl, fun h => h, fun _ h => by cases h; rfl⟩
  | cons record rest ih =>
    refine .bind (.update ?_)
    refine .bind (ih.mono ?_)
    rintro out m' t ⟨rfl, hnumbers, hentries⟩
    have hall : m.Numbers m' := fun h => hnumbers (m.inoFor_numbers record.id h)
    cases out with
    | error e => exact ⟨rfl, hall, fun _ h => by cases h⟩
    | ok entries =>
      refine .ok ⟨rfl, hall, fun _ h => ?_⟩
      cases h
      rw [hentries entries rfl, List.map_cons, entryOf, hnumbers.numberOf (m.inoFor_lookup record.id)]
      rfl

theorem parentInoOf_meets (parentId : Option Uuid) :
    Meets (directories cfg) (parentInoOf ino parentId) (fun out m' t => t = w
      ∧ ∃ number, out = .ok number ∧ ∀ m'', m'.Numbers m'' → (parentId.map m''.numberOf).getD ino = number) m w := by
  cases parentId with
  | none => exact .ok ⟨rfl, ino, rfl, fun _ _ => rfl⟩
  | some parentId => exact .update ⟨rfl, _, rfl, fun _ h => h.numberOf (m.inoFor_lookup parentId)⟩

theorem readdirRest_meets (hid : m.byIno.lookup ino = some id) :
    Meets (directories cfg) (readdirRest ino) (fun out m' t => t = w
      ∧ ∀ entries, out = .ok entries → entries = listing cfg w m' ino id) m w := by
  refine .bind ((idFor_bound hid).mono ?_)
  rintro _ _ _ ⟨rfl, rfl, rfl⟩
  refine .bind (.ask trivial ?_)
  rintro r t ⟨rfl, hr⟩
  cases r with
  | error e => exact .bind (.fail ⟨rfl, fun _ h => by cases h⟩)
  | ok node =>
    obtain ⟨record, hrecord, rfl⟩ := hr node rfl
    rw [exec_getNode_ok] at hrecord
    refine .bind (.ok ?_)
    dsimp only
    split_ifs
    · exact .fail ⟨rfl, fun _ h => by cases h⟩
    · refine .bind ((parentInoOf_meets record.parentId).mono ?_)
      rintro _ m₁ t ⟨rfl, number, rfl, hnumber⟩
      refine .bind ((childrenFrom_meets id (2 ^ 32 / page + 1) 0).mono ?_)
      rintro out m₂ t ⟨rfl, rfl, hchildren⟩
      cases out with
      | error e => exact ⟨rfl, fun _ h => by cases h⟩
      | ok children =>
        dsimp only
        rw [hchildren children rfl]
        refine .bind ((entriesOf_meets _).mono ?_)
        rintro out m₃ t ⟨rfl, hnumbers, hentries⟩
        cases out with
        | error e => exact ⟨rfl, fun _ h => by cases h⟩
        | ok entries =>
          refine .ok ⟨rfl, fun _ h => ?_⟩
          cases h
          rw [listing, hrecord, hentries entries rfl, ← hnumber m₃ hnumbers, List.drop_zero]

theorem sendAll_keeps (numbers : Table ℕ Uuid) (runs : List (ℕ × PendingWrite)) :
    Keeps (directories cfg) (fun m _ => m.byIno = numbers) (sendAll setup runs) := by
  have hask (c : ClientCall) : Keeps (directories cfg) (fun m _ => m.byIno = numbers) (Fs.ask c) :=
    .ask fun _ _ h => ⟨trivial, fun _ _ _ => h⟩
  have hid (ino : ℕ) : Keeps (directories cfg) (fun m _ => m.byIno = numbers) (idFor ino) := by
    refine .bind (.update fun _ _ h => h) fun m => ?_
    split
    · exact .ok _
    · exact .fail _
  induction runs with
  | nil => exact .ok ()
  | cons run rest ih =>
    refine .bind (.bind (hid run.1) fun nodeId =>
      .bind (.bind (hask _) fun answer => .bind ?_ fun _ => ?_) ?_) fun _ => ih
    · cases answer with
      | ok n => exact .ok n
      | error e => exact .fail e
    · unfold finish
      split
      · exact hask _
      · exact .ok ()
    · intro _
      unfold invalidate
      split_ifs
      · exact hask _
      · exact .ok ()

theorem readdirReply_meets (hid : m.byIno.lookup ino = some id) (offset : ℕ) (room : Room) :
    Meets (directories cfg) (readdirReply setup ino offset room) (fun out m' t =>
      ∀ reply, out = .ok reply → reply = .reply (listing cfg t m' ino id) offset room) m w := by
  have hflush : Meets (directories cfg) (flushAll setup) (fun _ m' _ => m'.byIno = m.byIno) m w :=
    .bind (.update (.bind (.update (sendAll_keeps m.byIno _ _ _ rfl))))
  refine .bind (.bind (hflush.mono fun out m₁ t hnumbers => ?_))
  cases out with
  | error e => exact fun _ h => by cases h
  | ok _ =>
    refine (readdirRest_meets (hnumbers ▸ hid)).mono ?_
    rintro out m₂ t' ⟨rfl, hentries⟩
    cases out with
    | error e => exact fun _ h => by cases h
    | ok entries =>
      refine .ok fun reply h => ?_
      cases h
      rw [hentries entries rfl]

structure Numbered (w : World) (m : Mount) (id : Uuid) : Prop where
  children : ∀ child ∈ w.childrenOf id, ∃ number, m.byId.lookup child.id = some number
  parent : ∀ node parentId, w.nodes.lookup id = some node → node.parentId = some parentId →
    ∃ number, m.byId.lookup parentId = some number

theorem inoFor_ends {number : ℕ} (h : m.byId.lookup id = some number) :
    Ends (directories cfg) (inoFor id) m w (.ok (m.numberOf id)) m w := by
  have hino : m.inoFor id = (m.numberOf id, m) := by
    unfold Mount.inoFor Mount.numberOf
    rw [h, Option.getD_some]
  have hends := Ends.update (R := directories cfg) (m := m) (s := w) (ε := ClientError) fun m => m.inoFor id
  rw [hino] at hends
  exact hends

theorem entriesOf_ends {records : List NodeRecord}
    (h : ∀ record ∈ records, ∃ number, m.byId.lookup record.id = some number) :
    Ends (directories cfg) (entriesOf (records.map nodeToResponse)) m w (.ok (records.map (entryOf m))) m w := by
  induction records with
  | nil => exact .ok _
  | cons record rest ih =>
    obtain ⟨number, hnumber⟩ := h record List.mem_cons_self
    refine .bind (inoFor_ends hnumber) (.bind (ih fun r hr => h r (List.mem_cons_of_mem _ hr)) ?_)
    exact .ok _

theorem childrenOf_ends (hshort : (w.childrenOf id).length < page) :
    Ends (directories cfg) (childrenOf id) m w (.ok ((w.listed cfg.backend id).map nodeToResponse)) m w := by
  have hlength : (w.listed cfg.backend id).length = (w.childrenOf id).length := by
    cases cfg.backend with
    | memory => rfl
    | postgres => exact List.length_insertionSort ..
  have hall : ((w.listed cfg.backend id).drop 0).take page = w.listed cfg.backend id := by
    rw [List.drop_zero, List.take_of_length_le (by omega)]
  have hpage : Ends (directories cfg) (Fs.ask (.listChildren id page 0)) m w
      (.ok (.ok ((w.listed cfg.backend id).map nodeToResponse))) m w := by
    refine .ask ⟨rfl, fun nodes h => ⟨_, congrArg Prod.fst (exec_listChildren ..), ?_⟩⟩
    cases h
    rw [hall]
  refine .bind hpage (.bind (.ok _) ?_)
  rw [if_pos (by rw [List.length_map, hlength]; exact hshort)]
  exact .ok _

theorem readdirReply_ends {node : NodeRecord} (hpending : m.pending = ∅) (hid : m.byIno.lookup ino = some id)
    (hnode : w.nodes.lookup id = some node) (hkind : node.kind = .directory) (hshort : (w.childrenOf id).length < page)
    (hnumbered : Numbered w m id) (offset : ℕ) (room : Room) :
    Ends (directories cfg) (readdirReply setup ino offset room) m w
      (.ok (.reply (listing cfg w m ino id) offset room)) m w := by
  have hdrain : m.drain setup = [] := by
    rw [List.eq_nil_iff_forall_not_mem]
    rintro ⟨ino, run⟩ hrun
    rw [Mount.mem_drain, hpending, AList.lookup_empty] at hrun
    cases hrun
  have hflush : Ends (directories cfg) (flushAll setup) m w (.ok ()) m w := by
    refine .bind (.update _) (.bind (.update _) ?_)
    dsimp only
    rw [hdrain, ← hpending]
    exact .ok ()
  have hidFor : Ends (directories cfg) (idFor ino) m w (.ok id) m w := by
    refine .bind (.update _) ?_
    dsimp only
    rw [hid]
    exact .ok id
  have hget : Ends (directories cfg) (Fs.ask (.getNode id)) m w (.ok (.ok (nodeToResponse node))) m w := by
    refine .ask ⟨rfl, fun response h => ⟨node, (exec_getNode_ok ..).mpr hnode, ?_⟩⟩
    cases h
    rfl
  have hparent : Ends (directories cfg) (parentInoOf ino node.parentId) m w
      (.ok ((node.parentId.map m.numberOf).getD ino)) m w := by
    cases hp : node.parentId with
    | none => exact .ok ino
    | some parentId =>
      obtain ⟨number, hnumber⟩ := hnumbered.parent node parentId hnode hp
      exact inoFor_ends hnumber
  refine .bind (.bind hflush (.bind hidFor (.bind hget (.bind (.ok _) ?_)))) (.ok _)
  rw [if_neg (show ¬ (nodeToResponse node).kind ≠ .directory from not_not.mpr hkind)]
  refine .bind hparent (.bind (childrenOf_ends hshort) (.bind (entriesOf_ends fun child hchild => ?_) ?_))
  · exact hnumbered.children child (World.mem_listed.mp hchild)
  · rw [listing, hnode]
    exact .ok _

theorem count_listing {child node : NodeRecord} (hkeys : ∀ {id node}, w.nodes.lookup id = some node → node.id = id)
    (honce : ∀ {id id' number}, m.byId.lookup id = some number → m.byId.lookup id' = some number → id = id')
    (hnumbered : Numbered w m id) (hnode : w.nodes.lookup id = some node) (hchild : child ∈ w.childrenOf id)
    (hdot : child.name ≠ [0x2e]) (hdots : child.name ≠ [0x2e, 0x2e]) :
    (listing cfg w m ino id).count (entryOf m child) = 1 := by
  have hids : ((values w.nodes).map NodeRecord.id).Nodup := by
    have hkey : w.nodes.entries.map (NodeRecord.id ∘ Sigma.snd) = w.nodes.keys :=
      List.map_congr_left fun entry hentry => hkeys (lookup_eq_some_iff.mpr hentry)
    rw [values, List.map_map, hkey]
    exact w.nodes.nodupKeys
  have hlisted : (w.listed cfg.backend id).Nodup := by
    have hchildren : (w.childrenOf id).Nodup := hids.of_map.filter _
    cases cfg.backend with
    | memory => exact hchildren
    | postgres => exact (List.perm_insertionSort _ _).nodup_iff.mpr hchildren
  have hentries : ((w.listed cfg.backend id).map (entryOf m)).Nodup := by
    refine hlisted.map_on fun a ha b hb hab => ?_
    rw [World.mem_listed] at ha hb
    obtain ⟨na, hna⟩ := hnumbered.children a ha
    obtain ⟨nb, hnb⟩ := hnumbered.children b hb
    have hnumber : na = nb := by
      have h := congrArg DirEntry.ino hab
      rwa [entryOf, entryOf, Mount.numberOf, Mount.numberOf, hna, hnb] at h
    have hid : a.id = b.id := honce hna (hnumber ▸ hnb)
    exact List.inj_on_of_nodup_map hids (List.mem_of_mem_filter ha) (List.mem_of_mem_filter hb) hid
  rw [listing, hnode, List.count_cons_of_ne fun h => hdot (congrArg DirEntry.name h).symm,
    List.count_cons_of_ne fun h => hdots (congrArg DirEntry.name h).symm]
  exact List.count_eq_one_of_mem hentries (List.mem_map_of_mem (World.mem_listed.mpr hchild))

end Fuse

end Dcfs
