import Dcfs.Fuse.Mirror
import Dcfs.Library.Twin

namespace Dcfs.Fuse

open Effects Fs Tables Routine

def Attr.untimed (attr : Attr) : Attr := { attr with atime := 0, mtime := 0, ctime := 0 }

variable {setup : Setup} {K : Mount → Prop} {m m₀ : Mount} {s t s₀ : Ideal} {ino : ℕ} {id : Uuid}
  {α β : Type} {R : Rules Client Ideal} {pre fin : Mount → Ideal → Mount → Ideal → Prop}

structure Reported (s s₀ : Ideal) (node node₀ : NodeResponse) : Prop where
  id : node₀.id = node.id
  here : s.Describes node
  there : s₀.Describes node₀
  contents : s₀.contents node.id = s.contents node.id

theorem Level.inoFor (hK : Stable K) (h : Level setup K m s m₀ s₀) (id : Uuid) :
    Level setup K (m.inoFor id).2 s (m₀.inoFor id).2 s₀ := by
  rw [Level, inoFor_pending]
  obtain ⟨⟨habreast, howed, hfaithful, hsized⟩, hm⟩ := h
  exact ⟨⟨(habreast.inoFor id).2.2, howed.inoFor habreast id, hfaithful, hsized.inoFor habreast id⟩,
    hK.inoFor id habreast hm⟩

theorem Level.remember (hK : Stable K) (h : Level setup K m s m₀ s₀) (hb : m.byIno.lookup ino = some id)
    (hhas : s₀.Has id) {node node₀ : NodeResponse} (hsize : node.size = (s₀.contents id).length) :
    Level setup K (m.remember ino node) s (m₀.remember ino node₀) s₀ := by
  obtain ⟨⟨habreast, howed, hfaithful, hsized⟩, hm⟩ := h
  refine ⟨⟨⟨habreast.byIno, habreast.byId, habreast.next, habreast.plain, habreast.below, habreast.named⟩,
    ⟨howed.nodes, howed.nextUuid, howed.contents, howed.held⟩, hfaithful, ?_⟩, hK.remember ino node hm⟩
  exact hsized.remember habreast hb hhas hsize

theorem Reported.entry {node node₀ : NodeResponse} (h : Reported s s₀ node node₀) (hnodes : s.nodes = s₀.nodes) :
    node₀.entry = node.entry := by
  have hthere := h.there.1
  rw [h.id, ← hnodes, h.here.1] at hthere
  exact (Option.some.inj hthere).symm

theorem Level.attrOf (hK : Stable K) (h : Level setup K m s m₀ s₀) {node node₀ : NodeResponse}
    (hnode : Reported s s₀ node node₀) :
    (m.attrOf node).1.untimed = (m₀.attrOf node₀).1.untimed
      ∧ (m.attrOf node).2.byIno.lookup (m.attrOf node).1.ino = some node.id
      ∧ Level setup K (m.attrOf node).2 s (m₀.attrOf node₀).2 s₀ := by
  obtain ⟨hino, hb, habreast⟩ := h.1.abreast.inoFor node.id
  have hlevel := h.inoFor hK node.id
  have hentry := hnode.entry h.1.owed.nodes
  have hsize : node.size = (s₀.contents node.id).length := by rw [hnode.here.2, hnode.contents]
  have hhas : s₀.Has node.id := (Ideal.has_congr h.1.owed.nodes).mp ⟨_, hnode.here.1⟩
  simp only [NodeResponse.entry, Entry.mk.injEq] at hentry
  obtain ⟨-, -, hkind, hmode, huid, hgid, -⟩ := hentry
  refine ⟨?_, hb, ?_⟩
  · have hreach : max (s₀.contents node.id).length (((m.inoFor node.id).2.highWater.lookup (m.inoFor node.id).1).getD 0)
        = (s₀.contents node.id).length := by
      cases hw : (m.inoFor node.id).2.highWater.lookup (m.inoFor node.id).1 with
      | none => exact Nat.max_zero _
      | some stop => exact max_eq_left ((hlevel.1.sized.reached hw).2 _ hb).2
    have hreach₀ : ∀ i, (m₀.inoFor node.id).2.highWater.lookup i = none := by
      intro i
      rw [habreast.plain, AList.lookup_empty]
    simp only [Mount.attrOf, Attr.untimed, Mount.remember, hnode.id, hino, hkind, hmode, huid, hgid, hsize, hreach,
      hreach₀, hnode.there.2, Option.getD_none, Nat.max_zero]
  · have hino₀ : (m₀.inoFor node₀.id).1 = (m.inoFor node.id).1 := by rw [hnode.id, hino]
    rw [Mount.attrOf, Mount.attrOf]
    simp only [hino₀]
    rw [hnode.id]
    exact hlevel.remember hK hb hhas hsize

theorem served_twin (post : α → β → Mount → Ideal → Mount → Ideal → Prop) (r : Served α) (r₀ : Served β) :
    Twin R (Alike fin post r r₀) fin post (served r) (served r₀) := by
  cases r with
  | ok a =>
    cases r₀ with
    | ok b => exact .ok fun _ _ _ _ h => h
    | error e => exact fun _ _ _ _ _ _ _ h => h.elim
  | error e =>
    cases r₀ with
    | ok b => exact fun _ _ _ _ _ _ _ h => h.elim
    | error e₀ => exact .steps (fun _ => rfl) (fun _ => rfl) fun _ _ _ _ h => h

theorem request_twin {x : Fs (Served α)} {y : Fs (Served β)} {γ δ : Type} {f : α → Fs γ} {g : β → Fs δ}
    {mid : α → β → Mount → Ideal → Mount → Ideal → Prop} {post : γ → δ → Mount → Ideal → Mount → Ideal → Prop}
    (hx : Twin R pre fin (Alike fin mid) x y) (hf : ∀ a b, Twin R (mid a b) fin post (f a) (g b)) :
    Twin R pre fin post (x >>= fun r => served r >>= f) (y >>= fun r => served r >>= g) :=
  .bind hx fun r r₀ => .bind (served_twin mid r r₀) hf

theorem idFor_run (ino : ℕ) (m : Mount) :
    idFor ino m = .done (((m.byIno.lookup ino).elim (.error .notFound) .ok : Served Uuid), m) := by
  unfold idFor
  simp only [bind, ExceptT.bind, ExceptT.mk, StateT.bind, Fs.look, Routine.update, Program.bind, ExceptT.bindCont]
  cases m.byIno.lookup ino <;> rfl

theorem idFor_twin (ino : ℕ) (hpre : ∀ m s m₀ s₀, pre m s m₀ s₀ → Abreast m m₀)
    (hfin : ∀ m s m₀ s₀, pre m s m₀ s₀ → m.byIno.lookup ino = none → fin m s m₀ s₀) :
    Twin R pre fin (fun id id₀ m s m₀ s₀ => pre m s m₀ s₀ ∧ id₀ = id ∧ m.byIno.lookup ino = some id) (idFor ino)
      (idFor ino) := by
  refine .steps (idFor_run ino) (idFor_run ino) fun m s m₀ s₀ h => ?_
  rw [(hpre m s m₀ s₀ h).byIno]
  cases hb : m.byIno.lookup ino with
  | none => exact ⟨rfl, hfin m s m₀ s₀ h hb⟩
  | some id => exact ⟨h, rfl, hb⟩

theorem attrOf_twin (hK : Stable K) {node node₀ : NodeResponse}
    {post : Attr → Attr → Mount → Ideal → Mount → Ideal → Prop}
    (h : ∀ m s m₀ s₀, pre m s m₀ s₀ → Level setup K m s m₀ s₀ ∧ Reported s s₀ node node₀
      ∧ ∀ attr attr₀ m' m₀', Level setup K m' s m₀' s₀ → attr.untimed = attr₀.untimed →
        m'.byIno.lookup attr.ino = some node.id → post attr attr₀ m' s m₀' s₀) :
    Twin R pre fin post (attrOf node) (attrOf node₀) := by
  refine .update fun m s m₀ s₀ hp => ?_
  obtain ⟨hlevel, hnode, hpost⟩ := h m s m₀ s₀ hp
  obtain ⟨hattr, hb, hlevel'⟩ := hlevel.attrOf hK hnode
  exact hpost _ _ _ _ hlevel' hattr hb

theorem Level.contents_eq (h : Level setup K m s m₀ s₀) (hb : m.byIno.lookup ino = some id)
    (hnone : m.pending.lookup ino = none) : s₀.contents id = s.contents id := by
  refine h.1.owed.contents_eq fun i hi => ?_
  rw [← h.1.abreast.named] at hi
  rw [h.1.abreast.named] at hb hi
  cases hb.symm.trans hi
  exact hnone

theorem ask_twin (c c₀ : ClientCall) {post : c.Reply → c₀.Reply → Mount → Ideal → Mount → Ideal → Prop}
    (h : ∀ m s m₀ s₀ r₀ s₁, pre m s m₀ s₀ → s₀.Accepts c₀ → s₀.Answers c₀ r₀ s₁ →
      s.Accepts c ∧ ∀ r t, s.Answers c r t → post r r₀ m t m₀ s₁) :
    Twin ideal pre fin post (ask c) (ask c₀) :=
  .ask fun m s m₀ s₀ r₀ s₁ hp hr =>
    ⟨(h m s m₀ s₀ r₀ s₁ hp hr.1 hr.2).1, fun r t ht => (h m s m₀ s₀ r₀ s₁ hp hr.1 hr.2).2 r t ht.2⟩

theorem getNode_twin {id id₀ : Uuid}
    (hpre : ∀ m s m₀ s₀, pre m s m₀ s₀ → s.nodes = s₀.nodes ∧ id₀ = id ∧ s₀.contents id = s.contents id) :
    Twin ideal pre fin (Alike fin fun node node₀ m s m₀ s₀ => pre m s m₀ s₀ ∧ Reported s s₀ node node₀ ∧ node.id = id)
      (ask (.getNode id)) (ask (.getNode id₀)) := by
  refine ask_twin (.getNode id) (.getNode id₀) fun m s m₀ s₀ r₀ s₁ h haccepts hanswers => ?_
  obtain ⟨hnodes, rfl, hcontents⟩ := hpre m s m₀ s₀ h
  refine ⟨(Ideal.has_congr hnodes).mpr haccepts, fun r t hr => ?_⟩
  cases r₀ with
  | error e => exact hanswers.elim
  | ok node₀ =>
    cases r with
    | error e => exact hr.elim
    | ok node =>
      obtain ⟨rfl, hthere, rfl⟩ := hanswers
      obtain ⟨hid, hhere, rfl⟩ := hr
      exact ⟨h, ⟨hid.symm, hhere, hthere, hid ▸ hcontents⟩, hid⟩

end Dcfs.Fuse
