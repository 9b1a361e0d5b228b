import Dcfs.Fuse.CatchUp
import Dcfs.Fuse.Twins

namespace Dcfs.Fuse

open Effects Fs Tables Routine Sparse

variable {setup : Setup} {K : Mount → Prop} {unsent : ℕ → Option PendingWrite} {m m₀ : Mount} {s s₀ : Ideal}
    {ino offset : ℕ}
  {id : Uuid} {run : PendingWrite} {data bytes : Bytes}

theorem Owed.rebuffer (h : Owed unsent m s s₀) (pending : Table ℕ PendingWrite) :
    Owed unsent { m with pending := pending } s s₀ := ⟨h.nodes, h.nextUuid, h.contents, h.held⟩

theorem Abreast.rebuffer (h : Abreast m m₀) (pending : Table ℕ PendingWrite) :
    Abreast { m with pending := pending } m₀ :=
  ⟨h.byIno, h.byId, h.next, h.plain, h.below, h.named⟩

theorem Owed.hold (h : Owed unsent m s s₀) (ha : Abreast m m₀) (hb : m.byIno.lookup ino = some id)
    (hfile : ∃ entry, s₀.nodes.lookup id = some entry ∧ entry.kind = .file) (hdata : run.data ≠ [])
    (hbytes : overlay (s.contents id) run.offset run.data = bytes) :
    Owed (Function.update unsent ino (some run)) m s (s₀.put id bytes) := by
  refine ⟨h.nodes, h.nextUuid, fun j => ?_, fun {i r} hr => ?_⟩
  · by_cases hj : j = id
    · subst hj
      rw [Ideal.put_self, ha.named.mp hb, Option.bind_some, Function.update_self, laid, hbytes]
    · rw [Ideal.put_of_ne _ hj, h.contents]
      cases hi : m.byId.lookup j with
      | none => rfl
      | some i =>
        have hne : i ≠ ino := by
          rintro rfl
          exact hj (Option.some.inj ((ha.named.mpr hi).symm.trans hb))
        rw [Option.bind_some, Option.bind_some, Function.update_of_ne hne]
  · rw [Function.update_apply] at hr
    split_ifs at hr with hi
    · cases hr
      obtain ⟨entry, hentry⟩ := hfile
      exact ⟨hdata, id, entry, hi ▸ hb, hentry⟩
    · exact h.held hr

theorem Owed.contents_of_none (h : Owed unsent m s s₀) (ha : Abreast m m₀) (hb : m.byIno.lookup ino = some id)
    (hnone : unsent ino = none) : s₀.contents id = s.contents id := by
  refine h.contents_eq fun i hi => ?_
  cases (ha.named.mp hb).symm.trans hi
  exact hnone

theorem Owed.contents_of_some (h : Owed unsent m s s₀) (ha : Abreast m m₀) (hb : m.byIno.lookup ino = some id)
    (hrun : unsent ino = some run) : s₀.contents id = overlay (s.contents id) run.offset run.data := by
  rw [h.contents, ha.named.mp hb, Option.bind_some, hrun, laid]

theorem lookup_setPending (m : Mount) (ino : ℕ) (run : PendingWrite) :
    (m.setPending ino run).pending.lookup = Function.update m.pending.lookup ino (some run) := by
  funext i
  rw [Mount.setPending, lookup_insert, Function.update_apply]

theorem lookup_dropPending (m : Mount) (ino : ℕ) :
    (m.dropPending ino).pending.lookup = Function.update m.pending.lookup ino none := by
  funext i
  rw [Mount.dropPending, lookup_erase, Function.update_apply]

structure Pending (setup : Setup) (ino : ℕ) (id : Uuid) (bytes : Bytes) (run : PendingWrite) (m m' : Mount)
    (s t s₀ : Ideal) :
    Prop where
  only : ∃ pending, m' = { m with pending := pending }
  buffered : m'.pending.lookup ino = some run
  owed : Owed m'.pending.lookup m' t (s₀.put id bytes)
  faithful : Faithful setup (some id) t

theorem Owed.set (h : Owed m.pending.lookup m s s₀) (ha : Abreast m m₀) (hf : Faithful setup (some id) s)
    (hb : m.byIno.lookup ino = some id) (hfile : ∃ entry, s₀.nodes.lookup id = some entry ∧ entry.kind = .file)
    (hdata : run.data ≠ []) (hbytes : overlay (s.contents id) run.offset run.data = bytes) :
    Pending setup ino id bytes run m (m.setPending ino run) s s s₀ := by
  refine ⟨⟨_, rfl⟩, ?_, ?_, hf⟩
  · exact (lookup_insert ..).trans (if_pos rfl)
  · rw [lookup_setPending]
    exact (h.hold ha hb hfile hdata hbytes).rebuffer _

theorem startRun_ideal (id : Uuid) (offset : ℕ) (data : Bytes) :
    Meets ideal (startRun setup id offset data)
      (fun out m' t => (∃ path, out = .ok ⟨offset, data, path⟩) ∧ m' = m ∧ t = s) m s := by
  refine .bind ?_
  unfold beginRecord
  split_ifs
  · exact .ask trivial fun path _ ht => .ok ⟨⟨path, rfl⟩, rfl, ht.2⟩
  · exact .ok (.ok ⟨⟨none, rfl⟩, rfl, rfl⟩)

theorem extend_ideal (run : PendingWrite) (data : Bytes) :
    Meets ideal (extend setup run data) (fun out m' t => out = .ok () ∧ m' = m ∧ t = s) m s := by
  unfold extend
  split
  · exact .bind (.ask trivial fun _ _ ht => .ok ⟨rfl, rfl, ht.2⟩)
  · exact .ok ⟨rfl, rfl, rfl⟩

theorem send_dropped (h : Owed m.pending.lookup m s s₀) (ha : Abreast m m₀) (hf : Faithful setup (some id) s)
    (hb : m.byIno.lookup ino = some id) (hrun : m.pending.lookup ino = some run) :
    Meets ideal (send setup id run) (fun out m' t => out = .ok () ∧ m' = m.dropPending ino
      ∧ Owed (m.dropPending ino).pending.lookup (m.dropPending ino) t s₀ ∧ Faithful setup (some id) t)
        (m.dropPending ino) s := by
  have ha' : Abreast (m.dropPending ino) m₀ := ha.rebuffer _
  have ho : Owed m.pending.lookup (m.dropPending ino) s s₀ := h.rebuffer _
  refine (send_owed ha' ho hf hb hrun).mono ?_
  rintro _ _ t ⟨rfl, rfl, ho', hf'⟩
  rw [← lookup_dropPending] at ho'
  exact ⟨rfl, rfl, ho', hf'⟩

theorem buffer_pending (h : Owed m.pending.lookup m s s₀) (ha : Abreast m m₀) (hf : Faithful setup (some id) s)
    (hb : m.byIno.lookup ino = some id) (hfile : ∃ entry, s₀.nodes.lookup id = some entry ∧ entry.kind = .file)
    (hdata : data ≠ []) :
    Meets ideal (buffer setup ino id offset data) (fun out m' t => ∃ run, out = .ok run
      ∧ Pending setup ino id (overlay (s₀.contents id) offset data) run m m' s t s₀) m s := by
  refine .bind (.update ?_)
  dsimp only
  split
  · rename_i run hrun
    split_ifs with hend
    · refine .bind ((extend_ideal run data).mono ?_)
      rintro _ _ _ ⟨rfl, rfl, rfl⟩
      refine .bind (.update (.ok ⟨_, rfl, h.set ha hf hb hfile (List.append_ne_nil_of_right_ne_nil _ hdata) ?_⟩))
      rw [h.contents_of_some ha hb hrun, ← hend, overlay_append _ _ (h.held hrun).1 hdata]
    · refine .bind (.update (.bind ((send_dropped h ha hf hb hrun).mono ?_)))
      rintro _ _ t ⟨rfl, rfl, ho, hf'⟩
      have ha' : Abreast (m.dropPending ino) m₀ := ha.rebuffer _
      have hcontents := ho.contents_of_none ha' hb ((lookup_erase ..).trans (if_pos rfl))
      refine .bind ((startRun_ideal id offset data).mono ?_)
      rintro _ _ _ ⟨⟨path, rfl⟩, rfl, rfl⟩
      obtain ⟨-, hbuffered, howed, hfaithful⟩ :=
        ho.set ha' hf' hb hfile (show (PendingWrite.mk offset data path).data ≠ [] from hdata)
        (congrArg (overlay · offset data) hcontents.symm)
      exact .bind (.update (.ok ⟨_, rfl, ⟨_, rfl⟩, hbuffered, howed, hfaithful⟩))
  · rename_i hnone
    refine .bind ((startRun_ideal id offset data).mono ?_)
    rintro _ _ _ ⟨⟨path, rfl⟩, rfl, rfl⟩
    refine .bind (.update (.ok ⟨_, rfl, h.set ha hf hb hfile hdata ?_⟩))
    rw [h.contents_of_none ha hb hnone]

theorem sendDue_owed (h : Owed m.pending.lookup m s s₀) (ha : Abreast m m₀) (hf : Faithful setup (some id) s)
    (hb : m.byIno.lookup ino = some id) (hrun : m.pending.lookup ino = some run) :
    Meets ideal (sendDue setup ino id run)
      (fun out m' t => out = .ok () ∧ (∃ pending, m' = { m with pending := pending })
      ∧ Owed m'.pending.lookup m' t s₀ ∧ Faithful setup (some id) t) m s := by
  unfold sendDue
  split_ifs
  · refine .bind (.update ((send_dropped h ha hf hb hrun).mono ?_))
    rintro _ _ t ⟨rfl, rfl, ho, hf'⟩
    exact ⟨rfl, ⟨_, rfl⟩, ho, hf'⟩
  · exact .ok ⟨rfl, ⟨_, rfl⟩, h, hf⟩

theorem Sized.reach (h : Sized m s₀) (ha : Abreast m m₀) (hb : m.byIno.lookup ino = some id) (hhas : s₀.Has id)
    (hdata : data ≠ []) :
    Sized (m.reach ino (offset + data.length)) (s₀.put id (overlay (s₀.contents id) offset data)) := by
  have hlen := length_overlay (s₀.contents id) offset hdata
  refine ⟨fun {i stop} hw => ?_, fun {i v size} hs => ?_⟩
  · rw [Mount.reach, lookup_insert] at hw
    split_ifs at hw with hi
    · cases hw
      subst hi
      refine ⟨ha.below hb, fun j hj => ?_⟩
      cases hb.symm.trans hj
      refine ⟨hhas, ?_⟩
      rw [Ideal.put_self, hlen]
      cases hold : m.highWater.lookup i with
      | none => simp
      | some stop => exact max_le_max ((h.reached hold).2 id hb).2 le_rfl
    · refine ⟨(h.reached hw).1, fun j hj => ⟨((h.reached hw).2 j hj).1, ?_⟩⟩
      have hne : j ≠ id := by
        rintro rfl
        exact hi (Option.some.inj ((ha.named.mp hj).symm.trans (ha.named.mp hb)))
      rw [Ideal.put_of_ne _ hne]
      exact ((h.reached hw).2 j hj).2
  · refine ⟨(h.remembered hs).1, fun j hj => ⟨((h.remembered hs).2 j hj).1, fun hnone => ?_⟩⟩
    rw [Mount.reach, lookup_insert] at hnone
    split_ifs at hnone with hi
    have hne : j ≠ id := by
      rintro rfl
      exact hi (Option.some.inj ((ha.named.mp hj).symm.trans (ha.named.mp hb)))
    rw [Ideal.put_of_ne _ hne]
    exact ((h.remembered hs).2 j hj).2 hnone

theorem ends_writeFile {nodeId : Uuid} {n : ℕ} {out : Served ℕ} {m₁ : Mount} {s₁ : Ideal}
    (h : Program.Ends ideal ((do
      let _ ← served (← ask (.writeFile nodeId offset data))
      pure n : Fs ℕ) m₀) s₀ (out, m₁) s₁) :
    out = .ok n ∧ m₁ = m₀ ∧ s₁ = s₀.put nodeId (overlay (s₀.contents nodeId) offset data)
      ∧ ∃ entry, s₀.nodes.lookup nodeId = some entry ∧ entry.kind = .file := by
  obtain ⟨out', m', s', hask, hrest⟩ := ends_bind h
  cases hask with
  | call hr hdone =>
    rename_i r
    cases hdone
    obtain ⟨haccepts, hanswers⟩ := hr
    cases r with
    | error e => exact hanswers.elim
    | ok _ =>
      cases hrest
      exact ⟨rfl, rfl, hanswers, haccepts⟩

theorem write_twin (hdata : data ≠ []) :
    Twin ideal (Level setup K) (Level setup fun _ => True)
      (fun n n₀ m s m₀ s₀ => Level setup (fun _ => True) m s m₀ s₀ ∧ n = n₀)
      (write setup ino offset data) (Direct.write ino offset data) := by
  refine .bind (idFor_twin ino (fun _ _ _ _ h => h.1.abreast) fun _ _ _ _ h _ => ⟨h.1, trivial⟩) fun id id₀ => ?_
  rintro m s m₀ s₀ out₀ m₁ s₁ ⟨hlevel, rfl, hb⟩ he
  obtain ⟨rfl, rfl, rfl, hfile⟩ := ends_writeFile he
  have hhas : s₀.Has id₀ := hfile.imp fun _ h => h.1
  have hsized : Sized (m.reach ino (offset + data.length)) _ := hlevel.1.sized.reach hlevel.1.abreast hb hhas hdata
  have ha : Abreast (m.reach ino (offset + data.length)) m₁ :=
    ⟨hlevel.1.abreast.byIno, hlevel.1.abreast.byId, hlevel.1.abreast.next, hlevel.1.abreast.plain,
      hlevel.1.abreast.below,
      hlevel.1.abreast.named⟩
  have ho : Owed m.pending.lookup (m.reach ino (offset + data.length)) s s₀ :=
    ⟨hlevel.1.owed.nodes, hlevel.1.owed.nextUuid, hlevel.1.owed.contents, hlevel.1.owed.held⟩
  refine .bind (.update (.bind ((buffer_pending ho ha (hlevel.1.faithful.weaken id₀) hb hfile hdata).mono ?_)))
  rintro _ _ t ⟨run, rfl, ⟨pending, rfl⟩, hrun, howed, hfaithful⟩
  refine .bind ((sendDue_owed howed (ha.rebuffer _) hfaithful hb hrun).mono ?_)
  rintro _ _ t' ⟨rfl, ⟨pending', rfl⟩, howed', hfaithful'⟩
  refine .bind ((invalidate_owed howed' hfaithful').mono ?_)
  rintro _ _ t'' ⟨rfl, rfl, howed'', hfaithful'', -⟩
  exact .ok ⟨⟨⟨ha.rebuffer _, howed'', hfaithful'', ⟨hsized.reached, hsized.remembered⟩⟩, trivial⟩, rfl⟩

end Dcfs.Fuse
