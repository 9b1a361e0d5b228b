import Dcfs.Fuse.PatchThrough

namespace Dcfs.Fuse

open Effects Fs Tables Routine

variable {setup : Setup} {m m₀ : Mount} {s t s₀ : Ideal} {ino : ℕ} {id : Uuid}
    {fin : Mount → Ideal → Mount → Ideal → Prop}

def Mount.Settled (m : Mount) : Prop := m.pending = ∅

theorem lookup_unbind {i : ℕ} {j : Uuid} (h : (m.unbind ino id).byIno.lookup i = some j) :
    i ≠ ino ∧ m.byIno.lookup i = some j := by
  rw [Mount.unbind, lookup_erase] at h
  split_ifs at h with hi
  exact ⟨hi, h⟩

theorem Abreast.unbind (h : Abreast m m₀) (hb : m.byIno.lookup ino = some id) :
    Abreast (m.unbind ino id) (m₀.unbind ino id) := by
  refine ⟨?_, ?_, h.next, ?_, fun hj => h.below (lookup_unbind hj).2, fun {i j} => ?_⟩
  · simp only [Mount.unbind, h.byIno]
  · simp only [Mount.unbind, h.byId]
  · simp only [Mount.unbind, h.plain]
    rfl
  · simp only [Mount.unbind, lookup_erase]
    have hboth : m.byIno.lookup i = some j → (i = ino ↔ j = id) := by
      intro hj
      constructor
      · rintro rfl
        exact Option.some.inj (hj.symm.trans hb)
      · rintro rfl
        exact Option.some.inj ((h.named.mp hj).symm.trans (h.named.mp hb))
    split_ifs with hi hj hj
    · simp
    · simp only [false_iff]
      intro hc
      exact hj ((hboth (h.named.mpr hc)).mp hi)
    · simp only [iff_false]
      intro hc
      exact hi ((hboth hc).mpr hj)
    · exact h.named

theorem Sized.unbind (h : Sized m s₀) (ha : Abreast m m₀) (hb : m.byIno.lookup ino = some id)
    (hhas : ∀ j, j ≠ id → s₀.Has j → t.Has j) (hcontents : t.contents = s₀.contents) : Sized (m.unbind ino id) t := by
  refine ⟨fun {i stop} hw => ?_, fun {i v size} hs => ?_⟩
  · simp only [Mount.unbind, lookup_erase] at hw
    split_ifs at hw with hi
    refine ⟨(h.reached hw).1, fun j hj => ?_⟩
    obtain ⟨hhas', hle⟩ := (h.reached hw).2 j (lookup_unbind hj).2
    exact ⟨hhas j (ha.ids_ne hb (lookup_unbind hj).2 hi) hhas', by rw [hcontents]; exact hle⟩
  · simp only [Mount.unbind, lookup_erase] at hs
    split_ifs at hs with hi
    refine ⟨(h.remembered hs).1, fun j hj => ?_⟩
    obtain ⟨hhas', hsize⟩ := (h.remembered hs).2 j (lookup_unbind hj).2
    refine ⟨hhas j (ha.ids_ne hb (lookup_unbind hj).2 hi) hhas', fun hw => ?_⟩
    simp only [Mount.unbind, lookup_erase, if_neg hi] at hw
    rw [hcontents]
    exact hsize hw

theorem owed_settled (hm : m.Settled) (hnodes : s.nodes = s₀.nodes) (huuid : s.nextUuid = s₀.nextUuid)
    (hcontents : s.contents = s₀.contents) : Owed m.pending.lookup m s s₀ := by
  have hnone : ∀ i, m.pending.lookup i = none := by
    intro i
    rw [hm, AList.lookup_empty]
  refine ⟨hnodes, huuid, fun j => ?_, fun {i run} hrun => ?_⟩
  · cases hj : m.byId.lookup j with
    | none => rw [hcontents]; rfl
    | some i => rw [Option.bind_some, hnone, hcontents]; rfl
  · cases (hnone i).symm.trans hrun

theorem Level.contents_settled (h : Level setup Mount.Settled m s m₀ s₀) : s.contents = s₀.contents :=
  funext fun id => (h.all_eq h.2 id).symm

theorem Level.unbind (h : Level setup Mount.Settled m s m₀ s₀) (hb : m.byIno.lookup ino = some id) :
    Level setup Mount.Settled (m.unbind ino id) s (m₀.unbind ino id) s₀ := by
  have hm : (m.unbind ino id).Settled := h.2
  exact ⟨⟨h.1.abreast.unbind hb, owed_settled hm h.1.owed.nodes h.1.owed.nextUuid h.contents_settled, h.1.faithful,
    h.1.sized.unbind h.1.abreast hb (fun _ _ hj => hj) rfl⟩, hm⟩

theorem settled_stable : Stable Mount.Settled := .pending fun pending => pending = ∅

theorem discard_settled (hm : m.Settled) :
    Meets ideal (discard setup ino) (fun out m' t => out = .ok () ∧ m' = m ∧ t = s) m s := by
  refine .bind (.update ?_)
  dsimp only
  rw [hm, AList.lookup_empty]
  exact .ok ⟨rfl, rfl, rfl⟩

theorem Level.any {K : Mount → Prop} (h : Level setup K m s m₀ s₀) : Level setup (fun _ => True) m s m₀ s₀ :=
  ⟨h.1, trivial⟩

theorem lookup_twin {K : Mount → Prop} {pre : Mount → Ideal → Mount → Ideal → Prop} (hK : Stable K)
    (hsettled : ∀ m, K m → m.Settled)
    (hpre : ∀ m s m₀ s₀, pre m s m₀ s₀ → Level setup (fun _ => True) m s m₀ s₀ ∧ ∀ n, n.byIno = m₀.byIno →
      n.Settled → K n)
    (parentIno : ℕ) (name : Bytes) :
    Twin ideal pre
      (fun m s m₀ s₀ => Level setup K m s m₀ s₀ ∧ ∀ parentId, m.byIno.lookup parentIno = some parentId →
        s.child parentId name = none)
      (fun attr attr₀ m s m₀ s₀ => Level setup K m s m₀ s₀ ∧ attr.untimed = attr₀.untimed
        ∧ Names parentIno name attr.ino m s)
      (lookup setup parentIno name) (findName parentIno name) := by
  refine .lead (fun m s m₀ s₀ h => ?_) fun _ => findName_twin hK hsettled parentIno name
  obtain ⟨hlevel, hknown⟩ := hpre m s m₀ s₀ h
  refine (flushAll_level hlevel).mono fun _ _ _ hout => ⟨hout.1, hout.2.1, ?_⟩
  exact hknown _ hout.2.1.abreast.byIno.symm hout.2.2

structure Leaving (setup : Setup) (stale : Option Uuid) (ino : ℕ) (id : Uuid) (m : Mount) (s : Ideal) (m₀ : Mount)
    (s₀ : Ideal) :
    Prop where
  abreast : Abreast m m₀
  settled : m.Settled
  bound : m.byIno.lookup ino = some id
  nodes : s.nodes = s₀.nodes
  nextUuid : s.nextUuid = s₀.nextUuid
  contents : s.contents = s₀.contents
  faithful : Faithful setup stale s
  sized : Sized (m.unbind ino id) s₀

theorem Leaving.unbind (h : Leaving setup none ino id m s m₀ s₀) :
    Level setup Mount.Settled (m.unbind ino id) s (m₀.unbind ino id) s₀ := by
  have hm : (m.unbind ino id).Settled := h.settled
  exact ⟨⟨h.abreast.unbind h.bound, owed_settled hm h.nodes h.nextUuid h.contents, h.faithful, h.sized⟩, hm⟩

theorem Leaving.invalidate (h : Leaving setup (some id) ino id m s m₀ s₀) :
    Meets ideal (invalidate setup id)
      (fun out m' t => (∃ c, out = .ok c) ∧ Leaving setup none ino id m' t m₀ s₀) m s := by
  refine (invalidate_cleared h.faithful).mono ?_
  rintro _ _ _ ⟨rfl, rfl, ⟨cache, rfl⟩, hf, -, -⟩
  exact ⟨⟨_, rfl⟩, h.abreast, h.settled, h.bound, h.nodes, h.nextUuid, h.contents, hf, h.sized⟩

theorem deleteNode_twin {id₀ : Uuid} :
    Twin ideal (fun m s m₀ s₀ => Level setup Mount.Settled m s m₀ s₀ ∧ id₀ = id ∧ m.byIno.lookup ino = some id) fin
      (Alike fin fun _ _ => Leaving setup (some id) ino id) (ask (.deleteNode id)) (ask (.deleteNode id₀)) := by
  refine ask_twin (.deleteNode id) (.deleteNode id₀) fun m s m₀ s₀ r₀ s₁ h haccepts hanswers => ?_
  obtain ⟨hlevel, rfl, hb⟩ := h
  have hnodes := hlevel.1.owed.nodes
  refine ⟨⟨(Ideal.has_congr hnodes).mpr haccepts.1, (Ideal.childIds_congr hnodes _).trans haccepts.2⟩, fun r t hr => ?_⟩
  cases r₀ with
  | error e => exact hanswers.elim
  | ok _ =>
    cases r with
    | error e => exact hr.elim
    | ok _ =>
      obtain rfl : s₁ = { s₀ with nodes := s₀.nodes.erase id₀ } := hanswers
      obtain rfl : t = { s with nodes := s.nodes.erase id₀ } := hr
      have hkept : ∀ (u : Ideal) (j : Uuid), j ≠ id₀ → u.Has j → Ideal.Has { u with nodes := u.nodes.erase id₀ } j := by
        intro u j hj hhas
        rw [Ideal.Has, lookup_erase, if_neg hj]
        exact hhas
      refine ⟨hlevel.1.abreast, hlevel.2, hb, by rw [hnodes], hlevel.1.owed.nextUuid, hlevel.contents_settled, ?_, ?_⟩
      · refine ⟨fun hc => ⟨(hlevel.1.faithful.cached hc).1, fun hstale => ?_⟩⟩
        obtain ⟨hhas, hdata⟩ := ((hlevel.1.faithful.weaken id₀).cached hc).2 hstale
        exact ⟨hkept s _ (fun heq => hstale (heq ▸ rfl)) hhas, hdata⟩
      · exact hlevel.1.sized.unbind hlevel.1.abreast hb (hkept s₀) rfl

theorem remove_twin (parentIno : ℕ) (name : Bytes) :
    Twin ideal (Level setup fun _ => True) (Level setup fun _ => True) (fun _ _ => Level setup fun _ => True)
      (remove setup parentIno name) (Direct.remove parentIno name) := by
  refine .bind ((lookup_twin settled_stable (fun _ h => h) (fun _ _ _ _ h => ⟨h, fun _ _ hn => hn⟩) parentIno name).mono
    (fun _ _ _ _ h => h) (fun _ _ _ _ h => h.1.any) fun _ _ _ _ _ _ h => h) fun attr attr₀ => ?_
  refine .given (c := attr₀.ino = attr.ino) (fun _ _ _ _ h => (congrArg Attr.ino h.2.1).symm) fun hino => ?_
  rw [hino]
  refine .lead (q := Level setup Mount.Settled) (fun m s m₀ s₀ h => (discard_settled h.1.2).mono ?_) fun _ => ?_
  · rintro _ _ _ ⟨rfl, rfl, rfl⟩
    exact ⟨⟨_, rfl⟩, h.1⟩
  refine .bind (idFor_twin attr.ino (fun _ _ _ _ h => h.1.abreast) fun _ _ _ _ h _ => h.any) fun id id₀ =>
    .given (fun _ _ _ _ h => h.2.1) ?_
  rintro rfl
  refine request_twin deleteNode_twin fun _ _ => .lead (fun m s m₀ s₀ h => h.invalidate) fun _ => ?_
  exact .update fun m s m₀ s₀ h => h.unbind.any

def Vacated (setup : Setup) (id newParentId : Uuid) (newName : Bytes) (m : Mount) (s : Ideal) (m₀ : Mount)
    (s₀ : Ideal) : Prop :=
  Level setup Mount.Settled m s m₀ s₀ ∧ ∀ replaced, s.child newParentId newName = some replaced → replaced ≠ id →
    m.byId.lookup replaced = none ∧ s.Cleared replaced

variable {newParentIno : ℕ} {newParentId : Uuid} {newName : Bytes} {entry : Entry}

theorem look_twin {pre : Mount → Ideal → Mount → Ideal → Prop} :
    Twin ideal pre fin (fun n n₀ m s m₀ s₀ => pre m s m₀ s₀ ∧ n = m ∧ n₀ = m₀) look look :=
  .update fun _ _ _ _ h => ⟨h, rfl, rfl⟩

theorem forgetReplaced_twin :
    Twin ideal (fun m s m₀ s₀ => Level setup Mount.Settled m s m₀ s₀
        ∧ ∃ replaced, m.byIno.lookup ino = some replaced ∧ s.child newParentId newName = some replaced) fin
      (fun _ _ => Vacated setup id newParentId newName) (forgetReplaced setup ino) (Direct.forgetReplaced ino) := by
  refine .lead (q := fun m s m₀ s₀ => Level setup Mount.Settled m s m₀ s₀
    ∧ ∃ replaced, m.byIno.lookup ino = some replaced
    ∧ s.child newParentId newName = some replaced) (fun m s m₀ s₀ h => (discard_settled h.1.2).mono ?_) fun _ => ?_
  · rintro _ _ _ ⟨rfl, rfl, rfl⟩
    exact ⟨⟨_, rfl⟩, h⟩
  refine .bind look_twin fun n n₀ => ?_
  refine .given (c := ∃ replaced, n.byIno.lookup ino = some replaced ∧ n₀.byIno = n.byIno) ?_ ?_
  · rintro _ _ _ _ ⟨⟨hlevel, replaced, hb, -⟩, rfl, rfl⟩
    exact ⟨replaced, hb, hlevel.1.abreast.byIno⟩
  rintro ⟨replaced, hb, hsame⟩
  rw [hsame, hb]
  refine .lead (q := fun m s m₀ s₀ => Level setup Mount.Settled m s m₀ s₀ ∧ m.byIno.lookup ino = some replaced
    ∧ s.child newParentId newName = some replaced ∧ s.Cleared replaced) ?_ fun _ => .update ?_
  · rintro _ _ _ _ ⟨⟨hlevel, replaced', hb', hchild⟩, rfl, rfl⟩
    cases hb.symm.trans hb'
    refine (invalidate_cleared (hlevel.1.faithful.weaken replaced)).mono ?_
    rintro _ _ _ ⟨rfl, rfl, ⟨cache, rfl⟩, hf, hclear, -⟩
    exact ⟨⟨_, rfl⟩, ⟨⟨hlevel.1.abreast, hlevel.1.owed.cache cache, hf, hlevel.1.sized⟩, hlevel.2⟩, hb, hchild, hclear⟩
  · rintro m s m₀ s₀ ⟨hlevel, hb, hchild, hclear⟩
    refine ⟨hlevel.unbind hb, fun other hother _ => ?_⟩
    cases hchild.symm.trans hother
    exact ⟨(lookup_erase ..).trans (if_pos rfl), hclear⟩

theorem replacing_twin {found found₀ : Served Attr} {K : Mount → Prop} {targetIno : ℕ}
    (hK : ∀ m, K m → m.Settled ∧ m.byIno.lookup targetIno = some id ∧ m.byIno.lookup newParentIno = some newParentId) :
    Twin ideal (Alike (fun m s m₀ s₀ => Level setup K m s m₀ s₀
          ∧ ∀ parentId, m.byIno.lookup newParentIno = some parentId → s.child parentId newName = none)
        (fun attr attr₀ m s m₀ s₀ => Level setup K m s m₀ s₀ ∧ attr.untimed = attr₀.untimed
          ∧ Names newParentIno newName attr.ino m s)
        found found₀) fin
      (fun _ _ => Vacated setup id newParentId newName) (replacing setup targetIno found)
        (Direct.replacing targetIno found₀) := by
  cases found with
  | error e =>
    cases found₀ with
    | ok attr₀ => exact fun _ _ _ _ _ _ _ h => h.elim
    | error e₀ =>
      refine .ok fun m s m₀ s₀ h => ?_
      obtain ⟨-, hlevel, habsent⟩ := h
      obtain ⟨hm, -, hparent⟩ := hK m hlevel.2
      refine ⟨hlevel.keep hm, fun replaced hchild => ?_⟩
      cases (habsent newParentId hparent).symm.trans hchild
  | ok attr =>
    cases found₀ with
    | error e₀ => exact fun _ _ _ _ _ _ _ h => h.elim
    | ok attr₀ =>
      refine .given (c := attr₀.ino = attr.ino) (fun _ _ _ _ h => (congrArg Attr.ino h.2.1).symm) fun hino => ?_
      rw [replacing, Direct.replacing, hino]
      split_ifs with hne
      · refine forgetReplaced_twin.mono (fun m s m₀ s₀ h => ?_) (fun _ _ _ _ h => h) fun _ _ _ _ _ _ h => h
        obtain ⟨hlevel, -, parentId, replaced, hparent, hchild, hb⟩ := h
        obtain ⟨hm, -, hparent'⟩ := hK m hlevel.2
        cases hparent.symm.trans hparent'
        exact ⟨hlevel.keep hm, replaced, hb, hchild⟩
      · -- the name is the renamed node's own
        refine .ok fun m s m₀ s₀ h => ?_
        obtain ⟨hlevel, -, parentId, replaced, hparent, hchild, hb⟩ := h
        obtain ⟨hm, htarget, hparent'⟩ := hK m hlevel.2
        cases hparent.symm.trans hparent'
        rw [not_not.mp hne] at hb
        cases htarget.symm.trans hb
        refine ⟨hlevel.keep hm, fun other hother hc => ?_⟩
        cases hchild.symm.trans hother
        exact absurd rfl hc

theorem Ideal.Has.renamed {j : Uuid} (h : s.Has j)
    (hne : ∀ replaced, s.child newParentId newName = some replaced → replaced ≠ id → j ≠ replaced) :
    (s.renamed id entry newParentId newName).Has j := by
  rw [Ideal.Has, Ideal.renamed, lookup_insert]
  split_ifs
  · exact ⟨_, rfl⟩
  · unfold Ideal.vacated
    split
    · rename_i replaced hchild
      split_ifs with hself
      · exact h
      · rw [lookup_erase, if_neg (hne replaced hchild hself)]
        exact h
    · exact h

theorem renameNode_twin :
    Twin ideal (Vacated setup id newParentId newName) fin (Alike fin fun _ _ => Level setup Mount.Settled)
      (ask (.renameNode id newParentId newName)) (ask (.renameNode id newParentId newName)) := by
  refine ask_twin (.renameNode id newParentId newName) (.renameNode id newParentId newName)
    fun m s m₀ s₀ r₀ s₁ h haccepts hanswers => ?_
  obtain ⟨hlevel, hvacated⟩ := h
  obtain ⟨hhas, hparent, hempty⟩ := haccepts
  have hnodes := hlevel.1.owed.nodes
  have hchild := Ideal.child_congr hnodes newParentId newName
  refine ⟨⟨(Ideal.has_congr hnodes).mpr hhas, (Ideal.has_congr hnodes).mpr hparent, fun replaced hreplaced hne => ?_⟩,
    fun r t hr => ?_⟩
  · rw [Ideal.childIds_congr hnodes]
    exact hempty replaced (hchild ▸ hreplaced) hne
  · cases r₀ with
    | error e => exact hanswers.elim
    | ok _ =>
      cases r with
      | error e => exact hr.elim
      | ok _ =>
        obtain ⟨entry, hentry₀, rfl⟩ := hanswers
        obtain ⟨entry', hentry, rfl⟩ := hr
        rw [hnodes] at hentry
        cases hentry₀.symm.trans hentry
        have hkept : ∀ {i j}, m.byIno.lookup i = some j → s₀.Has j →
          (s₀.renamed id entry newParentId newName).Has j := by
          intro i j hj hhas
          refine hhas.renamed fun replaced hreplaced hne heq => ?_
          have hnone := (hvacated replaced (hchild.trans hreplaced) hne).1
          rw [← heq, hlevel.1.abreast.named.mp hj] at hnone
          cases hnone
        refine ⟨⟨hlevel.1.abreast, owed_settled hlevel.2 ?_ hlevel.1.owed.nextUuid hlevel.contents_settled, ?_,
          ?_⟩, hlevel.2⟩
        · simp only [Ideal.renamed, Ideal.vacated, hchild, hnodes]
        · refine ⟨fun hc => ⟨(hlevel.1.faithful.cached hc).1, fun hstale => ?_⟩⟩
          obtain ⟨hhas', hdata⟩ := (hlevel.1.faithful.cached hc).2 hstale
          exact ⟨hhas'.renamed fun replaced hreplaced hne => (hvacated replaced hreplaced hne).2 hc, hdata⟩
        · refine ⟨fun hw => ⟨(hlevel.1.sized.reached hw).1, fun j hj => ?_⟩,
            fun hs => ⟨(hlevel.1.sized.remembered hs).1, fun j hj => ?_⟩⟩
          · exact ⟨hkept hj ((hlevel.1.sized.reached hw).2 j hj).1, ((hlevel.1.sized.reached hw).2 j hj).2⟩
          · exact ⟨hkept hj ((hlevel.1.sized.remembered hs).2 j hj).1, ((hlevel.1.sized.remembered hs).2 j hj).2⟩

theorem rename_twin (parentIno : ℕ) (name : Bytes) (newParentIno : ℕ) (newName : Bytes) :
    Twin ideal (Level setup fun _ => True) (Level setup fun _ => True) (fun _ _ => Level setup fun _ => True)
      (rename setup parentIno name newParentIno newName) (Direct.rename parentIno name newParentIno newName) := by
  refine .bind ((lookup_twin settled_stable (fun _ h => h) (fun _ _ _ _ h => ⟨h, fun _ _ hn => hn⟩) parentIno name).mono
    (fun _ _ _ _ h => h) (fun _ _ _ _ h => h.1.any) fun _ _ _ _ _ _ h => h) fun target target₀ => ?_
  refine .given (c := target₀.ino = target.ino) (fun _ _ _ _ h => (congrArg Attr.ino h.2.1).symm) fun hino => ?_
  rw [hino]
  refine .bind (idFor_twin target.ino (fun _ _ _ _ h => h.1.1.abreast) fun _ _ _ _ h _ => h.1.any) fun id id₀ =>
    .given (fun _ _ _ _ h => h.2.1) ?_
  rintro rfl
  refine .bind (idFor_twin newParentIno (fun _ _ _ _ h => h.1.1.1.abreast) fun _ _ _ _ h _ => h.1.1.any)
    fun newParentId newParentId₀ => .given (fun _ _ _ _ h => h.2.1) ?_
  rintro rfl
  refine .bind (Twin.attempt (lookup_twin ((settled_stable.bound target.ino id₀).bound newParentIno newParentId₀)
    (fun _ h => h.1.1) ?_ newParentIno newName)) fun found found₀ => ?_
  · rintro m s m₀ s₀ ⟨⟨⟨hlevel, -⟩, -, htarget⟩, -, hparent⟩
    refine ⟨hlevel.any, fun n hn hsettled => ?_⟩
    rw [hn, hlevel.1.abreast.byIno]
    exact ⟨⟨hsettled, htarget⟩, hparent⟩
  refine .bind (replacing_twin fun m h => ⟨h.1.1, h.1.2, h.2⟩) fun _ _ => ?_
  cases hname : toName newName with
  | error e => exact .fail fun _ _ _ _ h => h.1.any
  | ok checked =>
    obtain rfl := toName_eq hname
    exact request_twin renameNode_twin fun _ _ => .ok fun _ _ _ _ h => h.any

end Dcfs.Fuse
