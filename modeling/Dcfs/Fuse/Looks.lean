import Dcfs.Fuse.Twins

namespace Dcfs.Fuse

open Effects Fs Tables Routine

variable {setup : Setup} {K : Mount → Prop} {m m₀ : Mount} {s t s₀ : Ideal} {ino : ℕ}
  {pre fin : Mount → Ideal → Mount → Ideal → Prop}

theorem Level.keep {K' : Mount → Prop} (h : Level setup K m s m₀ s₀) (hm : K' m) : Level setup K' m s m₀ s₀ := ⟨h.1, hm⟩

theorem stat_twin (hK : Stable K) (hnone : ∀ m, K m → m.pending.lookup ino = none) :
    Twin ideal (Level setup K) (Level setup K)
      (fun attr attr₀ m s m₀ s₀ => Level setup K m s m₀ s₀ ∧ attr.untimed = attr₀.untimed) (stat ino) (stat ino) := by
  refine .bind (idFor_twin ino (fun _ _ _ _ h => h.1.abreast) fun _ _ _ _ h _ => h) fun id id₀ => ?_
  refine request_twin (getNode_twin fun m s m₀ s₀ h => ?_) fun node node₀ => ?_
  · obtain ⟨hlevel, hid, hb⟩ := h
    exact ⟨hlevel.1.owed.nodes, hid, hlevel.contents_eq hb (hnone m hlevel.2)⟩
  · exact attrOf_twin hK fun m s m₀ s₀ h => ⟨h.1.1, h.2.1, fun _ _ _ _ hlevel hattr _ => ⟨hlevel, hattr⟩⟩

theorem Level.all_eq (h : Level setup K m s m₀ s₀) (hnone : m.pending = ∅) (id : Uuid) :
    s₀.contents id = s.contents id :=
  h.1.owed.contents_eq fun i _ => by rw [hnone, AList.lookup_empty]

theorem findChild_twin {parentId parentId₀ : Uuid} {name : Bytes}
    (hpre : ∀ m s m₀ s₀, pre m s m₀ s₀ → s.nodes = s₀.nodes ∧ parentId₀ = parentId
      ∧ ∀ id, s₀.contents id = s.contents id)
    (hfin : ∀ m s m₀ s₀, pre m s m₀ s₀ → s.child parentId name = none → fin m s m₀ s₀) :
    Twin ideal pre fin (Alike fin fun node node₀ m s m₀ s₀ => pre m s m₀ s₀ ∧ Reported s s₀ node node₀
      ∧ s.child parentId name = some node.id) (ask (.findChild parentId name)) (ask (.findChild parentId₀ name)) := by
  refine ask_twin (.findChild parentId name) (.findChild parentId₀ name) fun m s m₀ s₀ r₀ s₁ h haccepts hanswers => ?_
  obtain ⟨hnodes, rfl, hcontents⟩ := hpre m s m₀ s₀ h
  have hchild := Ideal.child_congr hnodes parentId₀ name
  refine ⟨(Ideal.has_congr hnodes).mpr haccepts, fun r t hr => ?_⟩
  cases r₀ with
  | error e₀ =>
    obtain ⟨habsent, rfl, rfl⟩ := hanswers
    cases r with
    | error e =>
      obtain ⟨habsent', rfl, rfl⟩ := hr
      exact ⟨rfl, hfin _ _ _ _ h habsent'⟩
    | ok node =>
      obtain ⟨hfound, -⟩ := hr
      rw [hchild, habsent] at hfound
      cases hfound
  | ok node₀ =>
    obtain ⟨hfound, hthere, rfl⟩ := hanswers
    cases r with
    | error e =>
      obtain ⟨habsent, -⟩ := hr
      rw [hchild, hfound] at habsent
      cases habsent
    | ok node =>
      obtain ⟨hfound', hhere, rfl⟩ := hr
      have hid : node₀.id = node.id := Option.some.inj (hfound.symm.trans (hchild.symm.trans hfound'))
      exact ⟨h, ⟨hid, hhere, hthere, hcontents _⟩, hfound'⟩

def Names (parentIno : ℕ) (name : Bytes) (ino : ℕ) (m : Mount) (s : Ideal) : Prop :=
  ∃ parentId id, m.byIno.lookup parentIno = some parentId ∧ s.child parentId name = some id
    ∧ m.byIno.lookup ino = some id

theorem findName_twin (hK : Stable K) (hnone : ∀ m, K m → m.pending = ∅) (parentIno : ℕ) (name : Bytes) :
    Twin ideal (Level setup K)
      (fun m s m₀ s₀ => Level setup K m s m₀ s₀
        ∧ ∀ parentId, m.byIno.lookup parentIno = some parentId → s.child parentId name = none)
      (fun attr attr₀ m s m₀ s₀ => Level setup K m s m₀ s₀ ∧ attr.untimed = attr₀.untimed
        ∧ Names parentIno name attr.ino m s)
      (findName parentIno name) (findName parentIno name) := by
  refine .bind (idFor_twin parentIno (fun _ _ _ _ h => h.1.abreast) fun _ _ _ _ h hb => ⟨h, fun id hid => ?_⟩)
    fun parentId parentId₀ => ?_
  · cases hb.symm.trans hid
  refine request_twin (findChild_twin
    (fun m s m₀ s₀ h => ⟨h.1.1.owed.nodes, h.2.1, h.1.all_eq (hnone m h.1.2)⟩) fun m s m₀ s₀ h habsent => ?_)
    fun node node₀ => ?_
  · refine ⟨h.1, fun id hid => ?_⟩
    cases h.2.2.symm.trans hid
    exact habsent
  · refine attrOf_twin (hK.bound parentIno parentId) fun m s m₀ s₀ h => ⟨h.1.1.keep ⟨h.1.1.2, h.1.2.2⟩, h.2.1, ?_⟩
    intro attr attr₀ m' m₀' hlevel hattr hb
    exact ⟨hlevel.keep hlevel.2.1, hattr, parentId, node.id, hlevel.2.2, h.2.2, hb⟩

theorem syncFile_twin {id id₀ : Uuid} (hpre : ∀ m s m₀ s₀, pre m s m₀ s₀ → Level setup K m s m₀ s₀ ∧ id₀ = id) :
    Twin ideal pre fin (Alike fin fun _ _ => Level setup K) (ask (.syncFile id)) (ask (.syncFile id₀)) := by
  refine ask_twin (.syncFile id) (.syncFile id₀) fun m s m₀ s₀ r₀ s₁ h haccepts hanswers => ?_
  obtain ⟨hlevel, rfl⟩ := hpre m s m₀ s₀ h
  refine ⟨(Ideal.has_congr hlevel.1.owed.nodes).mpr haccepts, fun r t hr => ?_⟩
  cases r₀ with
  | error e => exact hanswers.elim
  | ok _ =>
    cases r with
    | error e => exact hr.elim
    | ok _ =>
      cases hanswers
      cases hr
      exact hlevel

theorem sync_twin (ino : ℕ) : Twin ideal (Level setup K) (Level setup K) (fun _ _ => Level setup K) (sync ino)
    (sync ino) := by
  refine .bind (idFor_twin ino (fun _ _ _ _ h => h.1.abreast) fun _ _ _ _ h _ => h) fun id id₀ => ?_
  exact .bind (syncFile_twin fun _ _ _ _ h => ⟨h.1, h.2.1⟩) fun r r₀ => served_twin _ r r₀

def SameEntry (node node₀ : NodeResponse) : Prop := node₀.id = node.id ∧ node₀.entry = node.entry

theorem sameEntry_of_describes {node node₀ : NodeResponse} (hnodes : s.nodes = s₀.nodes) (hid : node₀.id = node.id)
    (h : s.Describes node) (h₀ : s₀.Describes node₀) : SameEntry node node₀ := by
  have hthere := h₀.1
  rw [hid, ← hnodes, h.1] at hthere
  exact ⟨hid, (Option.some.inj hthere).symm⟩

theorem sameEntry_all (hnodes : s.nodes = s₀.nodes) {nodes nodes₀ : List NodeResponse}
    (hids : nodes.map NodeResponse.id = nodes₀.map NodeResponse.id) (h : ∀ node ∈ nodes, s.Describes node)
    (h₀ : ∀ node ∈ nodes₀, s₀.Describes node) : List.Forall₂ SameEntry nodes nodes₀ := by
  induction nodes generalizing nodes₀ with
  | nil =>
    cases nodes₀ with
    | nil => exact .nil
    | cons node₀ rest₀ => cases hids
  | cons node rest ih =>
    cases nodes₀ with
    | nil => cases hids
    | cons node₀ rest₀ =>
      obtain ⟨hid, hrest⟩ := List.cons.inj hids
      refine .cons (sameEntry_of_describes hnodes hid.symm (h _ List.mem_cons_self) (h₀ _ List.mem_cons_self)) ?_
      exact ih hrest (fun n hn => h n (List.mem_cons_of_mem _ hn)) fun n hn => h₀ n (List.mem_cons_of_mem _ hn)

theorem listChildren_twin (parentId : Uuid) (limit offset : ℕ) :
    Twin ideal (Level setup K) fin
      (Alike fin fun nodes nodes₀ m s m₀ s₀ => Level setup K m s m₀ s₀ ∧ List.Forall₂ SameEntry nodes nodes₀)
      (ask (.listChildren parentId limit offset)) (ask (.listChildren parentId limit offset)) := by
  refine ask_twin (.listChildren parentId limit offset) (.listChildren parentId limit offset)
    fun m s m₀ s₀ r₀ s₁ h haccepts hanswers => ?_
  refine ⟨(Ideal.has_congr h.1.owed.nodes).mpr haccepts, fun r t hr => ?_⟩
  cases r₀ with
  | error e => exact hanswers.elim
  | ok nodes₀ =>
    cases r with
    | error e => exact hr.elim
    | ok nodes =>
      obtain ⟨hids₀, h₀, rfl⟩ := hanswers
      obtain ⟨hids, hn, rfl⟩ := hr
      have hchildren := Ideal.childIds_congr h.1.owed.nodes parentId
      exact ⟨h, sameEntry_all h.1.owed.nodes (hids.trans (hchildren ▸ hids₀.symm)) hn h₀⟩

theorem childrenFrom_twin (parentId : Uuid) (pages offset : ℕ) :
    Twin ideal (Level setup K) (Level setup K)
      (fun nodes nodes₀ m s m₀ s₀ => Level setup K m s m₀ s₀ ∧ List.Forall₂ SameEntry nodes nodes₀)
      (childrenFrom parentId pages offset) (childrenFrom parentId pages offset) := by
  induction pages generalizing offset with
  | zero => exact .fail fun _ _ _ _ h => h
  | succ pages ih =>
    refine request_twin (listChildren_twin parentId page offset) fun nodes nodes₀ =>
      .given (fun _ _ _ _ h => h.2) fun hsame => ?_
    rw [← hsame.length_eq]
    split_ifs
    · exact .ok fun _ _ _ _ h => h
    · refine .bind ((ih (offset + page)).mono (fun _ _ _ _ h => h.1) (fun _ _ _ _ h => h) fun _ _ _ _ _ _ h => h) ?_
      exact fun rest rest₀ => .ok fun _ _ _ _ h => ⟨h.1, List.rel_append hsame h.2⟩

theorem inoFor_twin (hK : Stable K) (id : Uuid) (hpre : ∀ m s m₀ s₀, pre m s m₀ s₀ → Level setup K m s m₀ s₀) :
    Twin ideal pre fin (fun ino ino₀ m s m₀ s₀ => Level setup K m s m₀ s₀ ∧ ino₀ = ino) (inoFor id) (inoFor id) := by
  refine .update fun m s m₀ s₀ h => ?_
  exact ⟨(hpre m s m₀ s₀ h).inoFor hK id, ((hpre m s m₀ s₀ h).1.abreast.inoFor id).1⟩

theorem entriesOf_twin (hK : Stable K) {nodes nodes₀ : List NodeResponse} (h : List.Forall₂ SameEntry nodes nodes₀) :
    Twin ideal (Level setup K) (Level setup K)
      (fun entries entries₀ m s m₀ s₀ => Level setup K m s m₀ s₀ ∧ entries₀ = entries) (entriesOf nodes)
        (entriesOf nodes₀) := by
  induction h with
  | nil => exact .ok fun _ _ _ _ h => ⟨h, rfl⟩
  | @cons node node₀ rest rest₀ hnode _ ih =>
    obtain ⟨hid, hentry⟩ := hnode
    have hkind : node₀.kind = node.kind := congrArg Entry.kind hentry
    have hname : node₀.name = node.name := congrArg Entry.name hentry
    rw [entriesOf, entriesOf, hid, hkind, hname]
    refine .bind (inoFor_twin hK node.id fun _ _ _ _ h => h) fun ino ino₀ => .given (fun _ _ _ _ h => h.2) ?_
    rintro rfl
    refine .bind (ih.mono (fun _ _ _ _ h => h.1) (fun _ _ _ _ h => h) fun _ _ _ _ _ _ h => h) fun entries entries₀ => ?_
    refine .given (fun _ _ _ _ h => h.2) ?_
    rintro rfl
    exact .ok fun _ _ _ _ h => ⟨h.1, rfl⟩

theorem parentInoOf_twin (hK : Stable K) (ino : ℕ) (parentId : Option Uuid)
    (hpre : ∀ m s m₀ s₀, pre m s m₀ s₀ → Level setup K m s m₀ s₀) :
    Twin ideal pre fin (fun ino ino₀ m s m₀ s₀ => Level setup K m s m₀ s₀ ∧ ino₀ = ino) (parentInoOf ino parentId)
      (parentInoOf ino parentId) := by
  cases parentId with
  | none => exact .ok fun m s m₀ s₀ h => ⟨hpre m s m₀ s₀ h, rfl⟩
  | some parentId => exact inoFor_twin hK parentId hpre

theorem readdirRest_twin (hK : Stable K) (hnone : ∀ m, K m → m.pending = ∅) (ino : ℕ) :
    Twin ideal (Level setup K) (Level setup K)
      (fun entries entries₀ m s m₀ s₀ => Level setup K m s m₀ s₀ ∧ entries₀ = entries) (readdirRest ino)
        (readdirRest ino) := by
  refine .bind (idFor_twin ino (fun _ _ _ _ h => h.1.abreast) fun _ _ _ _ h _ => h) fun id id₀ =>
    .given (fun _ _ _ _ h => h.2.1) ?_
  rintro rfl
  refine request_twin (getNode_twin fun m s m₀ s₀ h => ⟨h.1.1.owed.nodes, rfl, h.1.all_eq (hnone m h.1.2) _⟩)
    fun node node₀ => .given (c := SameEntry node node₀) (fun m s m₀ s₀ h => ?_) ?_
  · exact ⟨h.2.1.id, h.2.1.entry h.1.1.1.owed.nodes⟩
  rintro ⟨-, hentry⟩
  have hkind : node₀.kind = node.kind := congrArg Entry.kind hentry
  have hparent : node₀.parentId = node.parentId := congrArg Entry.parentId hentry
  rw [hkind, hparent]
  split_ifs
  · exact .fail fun _ _ _ _ h => h.1.1
  · refine .bind (parentInoOf_twin hK ino node.parentId fun _ _ _ _ h => h.1.1) fun parentIno parentIno₀ =>
      .given (fun _ _ _ _ h => h.2) ?_
    rintro rfl
    refine .bind ((childrenFrom_twin _ _ _).mono (fun _ _ _ _ h => h.1) (fun _ _ _ _ h => h) fun _ _ _ _ _ _ h => h)
      fun nodes nodes₀ => .given (fun _ _ _ _ h => h.2) fun hsame => ?_
    refine .bind ((entriesOf_twin hK hsame).mono (fun _ _ _ _ h => h.1) (fun _ _ _ _ h => h) fun _ _ _ _ _ _ h => h)
      fun entries entries₀ => .given (fun _ _ _ _ h => h.2) ?_
    rintro rfl
    exact .ok fun _ _ _ _ h => ⟨h.1, rfl⟩

end Dcfs.Fuse
