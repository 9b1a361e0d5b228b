import Dcfs.Fuse.CatchUp
import Dcfs.Fuse.Looks

namespace Dcfs.Fuse

open Effects Fs Tables Routine

variable {setup : Setup} {K : Mount → Prop} {unsent : ℕ → Option PendingWrite} {m m₀ : Mount} {s t s₀ : Ideal} {ino : ℕ}
  {id : Uuid} {entry : Entry} {req : PatchNodeRequest}

def Ideal.Cleared (s : Ideal) (id : Uuid) : Prop := ∀ {key data}, s.cache.files.lookup key = some data → key.nodeId ≠ id

theorem invalidate_cleared (hf : Faithful setup (some id) s) :
    Meets ideal (invalidate setup id) (fun out m' t => out = .ok () ∧ m' = m ∧ (∃ cache, t = { s with cache := cache })
      ∧ Faithful setup none t ∧ t.Cleared id ∧ ∀ other, s.Cleared other → t.Cleared other) m s := by
  unfold invalidate
  split_ifs with hcache
  · refine .ask trivial ?_
    rintro _ _ ⟨-, rfl⟩
    refine ⟨rfl, rfl, ⟨_, rfl⟩, hf.invalidated, fun hc => (BlockCache.lookup_invalidate hc).1, ?_⟩
    exact fun other hother key data hc => hother (BlockCache.lookup_invalidate hc).2
  · have hnone : ∀ {key data}, s.cache.files.lookup key ≠ some data := fun hc => hcache (hf.cached hc).1
    exact .ok ⟨rfl, rfl, ⟨_, rfl⟩, ⟨fun hc => absurd hc hnone⟩, fun hc => absurd hc hnone, fun _ h => h⟩

theorem Faithful.elsewhere (h : Faithful setup none s) (hclear : s.Cleared id) (hcache : t.cache = s.cache)
    (hnodes : ∀ other, other ≠ id → t.nodes.lookup other = s.nodes.lookup other)
    (hcontents : ∀ other, other ≠ id → t.contents other = s.contents other) : Faithful setup none t := by
  refine ⟨fun {key data} hc => ?_⟩
  rw [hcache] at hc
  have hne := hclear hc
  obtain ⟨hon, hold⟩ := h.cached hc
  refine ⟨hon, fun hstale => ?_⟩
  obtain ⟨hhas, hdata⟩ := hold hstale
  refine ⟨?_, ?_⟩
  · rw [Ideal.Has, hnodes _ hne]
    exact hhas
  · rw [hdata, Ideal.slice, Ideal.slice, hcontents _ hne]

theorem length_resize (n : ℕ) (bytes : Bytes) : (resize (some n) bytes).length = n := by
  simp only [resize, List.length_append, List.length_take, List.length_replicate]
  omega


theorem Abreast.ids_ne (h : Abreast m m₀) {i : ℕ} {j : Uuid} (hb : m.byIno.lookup ino = some id)
    (hj : m.byIno.lookup i = some j) (hne : i ≠ ino) : j ≠ id := by
  rintro rfl
  exact hne (Option.some.inj ((h.named.mp hj).symm.trans (h.named.mp hb)))

namespace Ideal

theorem patched_self : (s.patched id entry req).contents id = resize req.size (s.contents id) := Function.update_self ..

theorem patched_of_ne {j : Uuid} (h : j ≠ id) : (s.patched id entry req).contents j = s.contents j :=
  Function.update_of_ne h ..

theorem Has.patched {j : Uuid} (h : s.Has j) : (s.patched id entry req).Has j := by
  rw [Has, Ideal.patched, lookup_insert]
  split_ifs
  · exact ⟨_, rfl⟩
  · exact h

end Ideal

def Mount.cut (m : Mount) (ino : ℕ) : Option ℕ → Mount
  | some size => m.truncated ino size
  | none => m

theorem Abreast.cut (h : Abreast m m₀) (ino : ℕ) (size : Option ℕ) : Abreast (m.cut ino size) m₀ := by
  cases size with
  | none => exact h
  | some n => exact ⟨h.byIno, h.byId, h.next, h.plain, h.below, h.named⟩

theorem Owed.cut (h : Owed unsent m s s₀) (ino : ℕ) (size : Option ℕ) : Owed unsent (m.cut ino size) s s₀ := by
  cases size with
  | none => exact h
  | some n => exact ⟨h.nodes, h.nextUuid, h.contents, h.held⟩

theorem Mount.cut_pending (m : Mount) (ino : ℕ) (size : Option ℕ) : (m.cut ino size).pending = m.pending := by
  cases size <;> rfl

theorem Mount.cut_byIno (m : Mount) (ino : ℕ) (size : Option ℕ) : (m.cut ino size).byIno = m.byIno := by
  cases size <;> rfl

theorem Sized.cut_unbound (h : Sized m s₀) (hb : m.byIno.lookup ino = none) {size : Option ℕ}
    (hino : size ≠ none → ino < m.next) : Sized (m.cut ino size) s₀ := by
  cases size with
  | none => exact h
  | some n =>
    refine ⟨fun {i stop} hw => ?_, fun {i v size} hs => ⟨(h.remembered hs).1, fun j hj => ?_⟩⟩
    · simp only [Mount.cut, Mount.truncated, lookup_insert] at hw
      split_ifs at hw with hi
      · rw [hi]
        refine ⟨hino (by simp), fun j hj => ?_⟩
        cases hb.symm.trans hj
      · exact h.reached hw
    · refine ⟨((h.remembered hs).2 j hj).1, fun hw => ((h.remembered hs).2 j hj).2 ?_⟩
      simp only [Mount.cut, Mount.truncated, lookup_insert] at hw
      split_ifs at hw
      exact hw

theorem Sized.patched (h : Sized m s₀) (ha : Abreast m m₀) (hb : m.byIno.lookup ino = some id) (hhas : s₀.Has id) :
    Sized (m.cut ino req.size) (s₀.patched id entry req) := by
  cases hsize : req.size with
  | none =>
    have hcontents : (s₀.patched id entry req).contents = s₀.contents := by
      rw [Ideal.patched, hsize]
      exact Function.update_eq_self ..
    refine ⟨fun {i stop} hw => ?_, fun {i v size} hs => ?_⟩
    · rw [hcontents]
      exact ⟨(h.reached hw).1, fun j hj => ⟨((h.reached hw).2 j hj).1.patched, ((h.reached hw).2 j hj).2⟩⟩
    · rw [hcontents]
      exact ⟨(h.remembered hs).1, fun j hj => ⟨((h.remembered hs).2 j hj).1.patched, ((h.remembered hs).2 j hj).2⟩⟩
  | some n =>
    refine ⟨fun {i stop} hw => ?_, fun {i v size} hs => ⟨(h.remembered hs).1, fun j hj => ?_⟩⟩
    · simp only [Mount.cut, Mount.truncated, lookup_insert] at hw
      split_ifs at hw with hi
      · cases hw
        rw [hi]
        refine ⟨ha.below hb, fun j hj => ?_⟩
        cases hb.symm.trans hj
        exact ⟨hhas.patched, by rw [Ideal.patched_self, hsize, length_resize]⟩
      · refine ⟨(h.reached hw).1, fun j hj => ⟨((h.reached hw).2 j hj).1.patched, ?_⟩⟩
        rw [Ideal.patched_of_ne (ha.ids_ne hb hj hi)]
        exact ((h.reached hw).2 j hj).2
    · refine ⟨((h.remembered hs).2 j hj).1.patched, fun hw => ?_⟩
      simp only [Mount.cut, Mount.truncated, lookup_insert] at hw
      split_ifs at hw with hi
      rw [Ideal.patched_of_ne (ha.ids_ne hb hj hi)]
      exact ((h.remembered hs).2 j hj).2 hw

theorem Owed.patched (h : Owed unsent m s s₀) (ha : Abreast m m₀) (hb : m.byIno.lookup ino = some id)
    (hnone : unsent ino = none) (hentry : s₀.nodes.lookup id = some entry) :
    Owed unsent m (s.patched id entry req) (s₀.patched id entry req) := by
  have hbyId := ha.named.mp hb
  refine ⟨by simp only [Ideal.patched, h.nodes], h.nextUuid, fun j => ?_, fun {i run} hrun => ?_⟩
  · have hj := h.contents j
    by_cases heq : j = id
    · subst heq
      rw [hbyId, Option.bind_some, hnone, laid] at hj
      rw [Ideal.patched_self, Ideal.patched_self, hbyId, Option.bind_some, hnone, laid, hj]
    · rw [Ideal.patched_of_ne heq, Ideal.patched_of_ne heq, hj]
  · obtain ⟨hdata, j, other, hj, hother, hkind⟩ := h.held hrun
    refine ⟨hdata, j, ?_⟩
    simp only [Ideal.patched, lookup_insert]
    split_ifs with heq
    · subst heq
      cases hentry.symm.trans hother
      exact ⟨_, hj, rfl, hkind⟩
    · exact ⟨other, hj, hother, hkind⟩

def Cutting (setup : Setup) (ino : ℕ) (size : Option ℕ) (m : Mount) (s : Ideal) (m₀ : Mount) (s₀ : Ideal) : Prop :=
  ∃ n, m = n.cut ino size ∧ Level setup (fun n => n.pending.lookup ino = none) n s m₀ s₀ ∧ (size ≠ none → ino < n.next)

theorem truncate_cutting {size : Option ℕ} (h : Level setup (fun n => n.pending.lookup ino = none) m s m₀ s₀)
    (hino : size ≠ none → ino < m₀.next) :
    Meets ideal (truncate ino size) (fun out m' t => (∃ c, out = .ok c) ∧ Cutting setup ino size m' t m₀ s₀) m s := by
  rw [h.1.abreast.next] at hino
  cases size with
  | none => exact .ok ⟨⟨_, rfl⟩, m, rfl, h, hino⟩
  | some n => exact .update ⟨⟨_, rfl⟩, m, rfl, h, hino⟩

theorem patchNode_twin {fin : Mount → Ideal → Mount → Ideal → Prop} {id₀ : Uuid} :
    Twin ideal (fun m s m₀ s₀ => Cutting setup ino req.size m s m₀ s₀ ∧ id₀ = id ∧ m.byIno.lookup ino = some id
      ∧ s.Cleared id) fin
      (Alike fin fun node node₀ m s m₀ s₀ => Level setup (fun _ => True) m s m₀ s₀ ∧ Reported s s₀ node node₀)
      (ask (.patchNode id req)) (ask (.patchNode id₀ req)) := by
  refine ask_twin (.patchNode id req) (.patchNode id₀ req) fun m s m₀ s₀ r₀ s₁ h haccepts hanswers => ?_
  obtain ⟨⟨n, rfl, ⟨⟨ha, ho, hf, hsized⟩, hnone⟩, -⟩, rfl, hb, hclear⟩ := h
  rw [Mount.cut_byIno] at hb
  refine ⟨(Ideal.has_congr ho.nodes).mpr haccepts, fun r t hr => ?_⟩
  cases r₀ with
  | error e => exact hanswers.elim
  | ok node₀ =>
    cases r with
    | error e => exact hr.elim
    | ok node =>
      obtain ⟨hid₀, hthere, entry, hentry₀, rfl⟩ := hanswers
      obtain ⟨hid, hhere, entry', hentry, rfl⟩ := hr
      rw [ho.nodes] at hentry
      cases hentry₀.symm.trans hentry
      have howed : Owed _ n (s.patched id₀ entry req) _ := ho.patched ha hb hnone hentry₀
      have hfaithful : Faithful setup none (s.patched id₀ entry req) := by
        refine hf.elsewhere hclear rfl (fun j hj => ?_) fun j hj => Ideal.patched_of_ne hj
        simp only [Ideal.patched, lookup_insert, if_neg hj]
      have hlevel : Level setup (fun _ => True) (n.cut ino req.size) (s.patched id₀ entry req) m₀
        (s₀.patched id₀ entry req) := by
        rw [Level, Mount.cut_pending]
        exact ⟨⟨ha.cut _ _, howed.cut _ _, hfaithful, hsized.patched ha hb haccepts⟩, trivial⟩
      refine ⟨hlevel, hid₀.trans hid.symm, hhere, hthere, ?_⟩
      rw [hid, Ideal.patched_self, Ideal.patched_self, ho.contents, ha.named.mp hb, Option.bind_some, hnone, laid]

theorem setattr_twin (ino : ℕ) (req : PatchNodeRequest) :
    Twin ideal (fun m s m₀ s₀ => Level setup (fun _ => True) m s m₀ s₀ ∧ (req.size ≠ none → ino < m₀.next))
      (Level setup fun _ => True) (fun attr attr₀ m s m₀ s₀ => Level setup (fun _ => True) m s m₀ s₀
        ∧ attr.untimed = attr₀.untimed)
      (setattr setup ino req) (Direct.setattr ino req) := by
  refine .lead (q := fun m s m₀ s₀ => Level setup (fun n => n.pending.lookup ino = none) m s m₀ s₀
    ∧ (req.size ≠ none → ino < m₀.next))
    (fun m s m₀ s₀ h => (flush_level h.1 ino).mono fun _ _ _ hout => ⟨hout.1, hout.2, h.2⟩) fun _ => ?_
  refine .lead (fun m s m₀ s₀ h => truncate_cutting h.1 h.2) fun _ => ?_
  refine .bind (idFor_twin ino ?_ ?_) fun id id₀ => ?_
  · rintro _ _ _ _ ⟨n, rfl, h, -⟩
    exact h.1.abreast.cut _ _
  · rintro _ _ _ _ ⟨n, rfl, ⟨⟨ha, ho, hf, hsized⟩, -⟩, hino⟩ hb
    rw [Mount.cut_byIno] at hb
    rw [Level, Mount.cut_pending]
    exact ⟨⟨ha.cut _ _, ho.cut _ _, hf, hsized.cut_unbound hb hino⟩, trivial⟩
  · refine .lead (q := fun m s m₀ s₀ => Cutting setup ino req.size m s m₀ s₀ ∧ id₀ = id
      ∧ m.byIno.lookup ino = some id ∧ s.Cleared id)
      ?_ fun _ => request_twin patchNode_twin fun node node₀ => ?_
    · rintro _ _ _ _ ⟨⟨n, rfl, hlevel, hino⟩, hid, hb⟩
      refine (invalidate_cleared (hlevel.1.faithful.weaken id)).mono ?_
      rintro _ _ _ ⟨rfl, rfl, ⟨cache, rfl⟩, hf, hclear, -⟩
      exact ⟨⟨_, rfl⟩, ⟨n, rfl, ⟨⟨hlevel.1.abreast, hlevel.1.owed.cache cache, hf, hlevel.1.sized⟩, hlevel.2⟩,
        hino⟩, hid, hb, hclear⟩
    · exact attrOf_twin (.pending fun _ => True) fun m s m₀ s₀ h =>
        ⟨h.1, h.2, fun _ _ _ _ hlevel hattr _ => ⟨hlevel, hattr⟩⟩

section

variable {req : CreateNodeRequest} (hfresh : s₀.nodes.lookup req.idempotencyKey = none)

include hfresh

theorem Ideal.Has.ne_fresh (h : s₀.Has id) : id ≠ req.idempotencyKey := by
  rintro rfl
  obtain ⟨entry, hentry⟩ := h
  cases hfresh.symm.trans hentry

theorem Ideal.Has.created (h : s₀.Has id) :
    (s₀.created req).Has id ∧ (s₀.created req).contents id = s₀.contents id := by
  have hne := h.ne_fresh hfresh
  refine ⟨?_, Function.update_of_ne hne ..⟩
  rw [Ideal.Has, Ideal.created, lookup_insert, if_neg hne]
  exact h

theorem Owed.created (h : Owed unsent m s s₀) (ha : Abreast m m₀) : Owed unsent m (s.created req) (s₀.created req) := by
  refine ⟨by simp only [Ideal.created, h.nodes], h.nextUuid, fun j => ?_, fun {i run} hrun => ?_⟩
  · simp only [Ideal.created, Function.update_apply]
    split_ifs with hj
    · -- nothing is buffered for a node that is not there
      have hnone : (m.byId.lookup j).bind unsent = none := by
        rw [Option.bind_eq_none_iff]
        intro i hi
        cases hrun : unsent i with
        | none => rfl
        | some run =>
          obtain ⟨-, j', entry, hj', hentry, -⟩ := h.held hrun
          cases (ha.named.mpr hi).symm.trans hj'
          exact absurd hj (Ideal.Has.ne_fresh hfresh ⟨entry, hentry⟩)
      rw [hnone, laid]
    · exact h.contents j
  · obtain ⟨hdata, j, entry, hj, hentry, hkind⟩ := h.held hrun
    have hne := Ideal.Has.ne_fresh hfresh ⟨entry, hentry⟩
    exact ⟨hdata, j, entry, hj, by rw [Ideal.created, lookup_insert, if_neg hne, hentry], hkind⟩

theorem Faithful.created (h : Faithful setup none s) (hnodes : s.nodes = s₀.nodes) :
    Faithful setup none (s.created req) := by
  refine ⟨fun hc => ⟨(h.cached hc).1, fun hstale => ?_⟩⟩
  obtain ⟨hhas, hdata⟩ := (h.cached hc).2 hstale
  rw [← hnodes] at hfresh
  obtain ⟨hhas', hcontents⟩ := hhas.created hfresh
  exact ⟨hhas', by rw [hdata, Ideal.slice, Ideal.slice, hcontents]⟩

theorem Sized.created (h : Sized m s₀) : Sized m (s₀.created req) := by
  refine ⟨fun hw => ⟨(h.reached hw).1, fun j hj => ?_⟩, fun hs => ⟨(h.remembered hs).1, fun j hj => ?_⟩⟩
  · obtain ⟨hhas, hle⟩ := (h.reached hw).2 j hj
    obtain ⟨hhas', hcontents⟩ := hhas.created hfresh
    exact ⟨hhas', by rw [hcontents]; exact hle⟩
  · obtain ⟨hhas, hsize⟩ := (h.remembered hs).2 j hj
    obtain ⟨hhas', hcontents⟩ := hhas.created hfresh
    exact ⟨hhas', by rw [hcontents]; exact hsize⟩

end

theorem createNode_twin {fin : Mount → Ideal → Mount → Ideal → Prop} (req : CreateNodeRequest) :
    Twin ideal (Level setup K) fin
      (Alike fin fun node node₀ m s m₀ s₀ => Level setup K m s m₀ s₀ ∧ Reported s s₀ node node₀)
      (ask (.createNode req)) (ask (.createNode req)) := by
  refine ask_twin (.createNode req) (.createNode req) fun m s m₀ s₀ r₀ s₁ h haccepts hanswers => ?_
  obtain ⟨⟨ha, ho, hf, hsized⟩, hm⟩ := h
  obtain ⟨hhas, habsent, hfresh⟩ := haccepts
  refine ⟨⟨(Ideal.has_congr ho.nodes).mpr hhas, ?_, ?_⟩, fun r t hr => ?_⟩
  · rw [Ideal.child_congr ho.nodes, habsent]
  · rw [ho.nodes, hfresh]
  · cases r₀ with
    | error e => exact hanswers.elim
    | ok node₀ =>
      cases r with
      | error e => exact hr.elim
      | ok node =>
        obtain ⟨hid₀, hthere, rfl⟩ := hanswers
        obtain ⟨hid, hhere, rfl⟩ := hr
        refine ⟨⟨⟨ha, ho.created hfresh ha, hf.created hfresh ho.nodes, hsized.created hfresh⟩, hm⟩,
          hid₀.trans hid.symm,
          hhere, hthere, ?_⟩
        rw [hid]
        simp only [Ideal.created, Function.update_self]

theorem newUuid_twin {fin : Mount → Ideal → Mount → Ideal → Prop} :
    Twin ideal (Level setup K) fin (fun key key₀ m s m₀ s₀ => Level setup K m s m₀ s₀ ∧ key₀ = key) (ask .newUuid)
      (ask .newUuid) := by
  refine ask_twin .newUuid .newUuid fun m s m₀ s₀ r₀ s₁ h haccepts hanswers => ⟨trivial, fun r t hr => ?_⟩
  obtain ⟨rfl, rfl⟩ := hanswers
  obtain ⟨rfl, rfl⟩ := hr
  obtain ⟨⟨ha, ⟨hnodes, huuid, hcontents, hheld⟩, hf, hsized⟩, hm⟩ := h
  refine ⟨⟨⟨ha, ⟨hnodes, congrArg (· + 1) huuid, hcontents, hheld⟩, ⟨hf.cached⟩,
    ⟨hsized.reached, hsized.remembered⟩⟩, hm⟩, huuid.symm⟩

theorem create_twin (hK : Stable K) (parentIno : ℕ) (name : Bytes) (kind : NodeKind) (mode uid gid : ℕ) :
    Twin ideal (Level setup K) (Level setup K)
      (fun attr attr₀ m s m₀ s₀ => Level setup K m s m₀ s₀ ∧ attr.untimed = attr₀.untimed)
      (create parentIno name kind mode uid gid) (create parentIno name kind mode uid gid) := by
  refine .bind (idFor_twin parentIno (fun _ _ _ _ h => h.1.abreast) fun _ _ _ _ h _ => h) fun id id₀ =>
    .given (fun _ _ _ _ h => h.2.1) ?_
  rintro rfl
  cases toName name with
  | error e => exact .fail fun _ _ _ _ h => h.1
  | ok name =>
    refine .bind (newUuid_twin.mono (fun _ _ _ _ h => h.1) (fun _ _ _ _ h => h) fun _ _ _ _ _ _ h => h) fun key key₀ =>
      .given (fun _ _ _ _ h => h.2) ?_
    rintro rfl
    refine request_twin ((createNode_twin _).mono (fun _ _ _ _ h => h.1) (fun _ _ _ _ h => h) fun _ _ _ _ _ _ h => h)
      fun node node₀ => ?_
    exact attrOf_twin hK fun m s m₀ s₀ h => ⟨h.1, h.2, fun _ _ _ _ hlevel hattr _ => ⟨hlevel, hattr⟩⟩

end Dcfs.Fuse
