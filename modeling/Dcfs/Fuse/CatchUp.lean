import Dcfs.Fuse.Mirror
import Dcfs.Fuse.Upkeep

namespace Dcfs.Fuse

open Effects Fs Tables Routine Sparse

variable {setup : Setup} {unsent : ℕ → Option PendingWrite} {m m₀ : Mount} {s s₀ : Ideal} {ino : ℕ} {id : Uuid}
  {run : PendingWrite}

theorem Owed.sent (h : Owed unsent m s s₀) (ha : Abreast m m₀) (hb : m.byIno.lookup ino = some id)
    (hrun : unsent ino = some run) :
    Owed (Function.update unsent ino none) m (s.put id (overlay (s.contents id) run.offset run.data)) s₀ := by
  refine ⟨h.nodes, h.nextUuid, fun j => ?_, fun {i r} hr => ?_⟩
  · rw [h.contents j]
    by_cases hj : j = id
    · subst hj
      rw [ha.named.mp hb, Option.bind_some, Option.bind_some, hrun, Function.update_self, Ideal.put_self]
      rfl
    · rw [Ideal.put_of_ne _ hj]
      cases hi : m.byId.lookup j with
      | none => rfl
      | some i =>
        have hne : i ≠ ino := by
          rintro rfl
          exact hj (Option.some.inj ((ha.named.mpr hi).symm.trans hb))
        rw [Option.bind_some, Option.bind_some, Function.update_of_ne hne]
  · rw [Function.update_apply] at hr
    split_ifs at hr
    exact h.held hr

theorem Faithful.weaken (h : Faithful setup none s) (id : Uuid) : Faithful setup (some id) s :=
  ⟨fun hc => ⟨(h.cached hc).1, fun _ => (h.cached hc).2 nofun⟩⟩

theorem Faithful.put (h : Faithful setup (some id) s) (bytes : Bytes) : Faithful setup (some id) (s.put id bytes) := by
  refine ⟨fun {key data} hc => ⟨(h.cached hc).1, fun hne => ?_⟩⟩
  obtain ⟨hhas, hdata⟩ := (h.cached hc).2 hne
  refine ⟨hhas, ?_⟩
  have hkey : key.nodeId ≠ id := fun heq => hne (heq ▸ rfl)
  rw [hdata, Ideal.slice, Ideal.slice, Ideal.put_of_ne _ hkey]

theorem Faithful.invalidated (h : Faithful setup (some id) s) :
    Faithful setup none { s with cache := s.cache.invalidate id } := by
  refine ⟨fun hc => ?_⟩
  obtain ⟨hne, hold⟩ := BlockCache.lookup_invalidate hc
  exact ⟨(h.cached hold).1, fun _ => (h.cached hold).2 fun heq => hne (Option.some.inj heq).symm⟩

theorem Owed.cache (h : Owed unsent m s s₀) (cache : BlockCache) : Owed unsent m { s with cache := cache } s₀ :=
  ⟨h.nodes, h.nextUuid, h.contents, h.held⟩

theorem finish_ideal (run : PendingWrite) :
    Meets ideal (finish setup run) (fun out m' t => out = .ok () ∧ m' = m ∧ t = s) m s := by
  unfold finish
  split
  · exact .ask trivial fun r t hr => ⟨rfl, rfl, hr.2⟩
  · exact .ok ⟨rfl, rfl, rfl⟩

theorem send_owed (ha : Abreast m m₀) (ho : Owed unsent m s s₀) (hf : Faithful setup (some id) s)
    (hb : m.byIno.lookup ino = some id) (hrun : unsent ino = some run) :
    Meets ideal (send setup id run) (fun out m' t => out = .ok () ∧ m' = m
      ∧ Owed (Function.update unsent ino none) m t s₀ ∧ Faithful setup (some id) t) m s := by
  obtain ⟨-, id', entry, hb', hentry, hkind⟩ := ho.held hrun
  cases hb.symm.trans hb'
  refine .bind (.ask ⟨entry, ho.nodes ▸ hentry, hkind⟩ ?_)
  rintro (e | n) t ⟨-, ht⟩
  · exact ht.elim
  · obtain rfl : t = s.put id (overlay (s.contents id) run.offset run.data) := ht
    refine .bind (.ok ((finish_ideal run).mono ?_))
    rintro _ _ _ ⟨rfl, rfl, rfl⟩
    exact ⟨rfl, rfl, ho.sent ha hb hrun, hf.put _⟩

theorem invalidate_owed (ho : Owed unsent m s s₀) (hf : Faithful setup (some id) s) :
    Meets ideal (invalidate setup id)
      (fun out m' t => out = .ok () ∧ m' = m ∧ Owed unsent m t s₀ ∧ Faithful setup none t
      ∧ ∃ cache, t = { s with cache := cache }) m s := by
  unfold invalidate
  split_ifs with hcache
  · refine .ask trivial ?_
    rintro _ _ ⟨-, rfl⟩
    exact ⟨rfl, rfl, ho.cache _, hf.invalidated, _, rfl⟩
  · exact .ok ⟨rfl, rfl, ho, ⟨fun hc => absurd (hf.cached hc).1 hcache⟩, _, rfl⟩

theorem sendDrained_mirrors (h : Mirrors setup none unsent m s m₀ s₀) (hrun : unsent ino = some run) :
    Meets ideal (sendDrained setup ino run) (fun out m' t => out = .ok () ∧ m' = m
      ∧ Mirrors setup none (Function.update unsent ino none) m t m₀ s₀) m s := by
  obtain ⟨-, id, -, hb, -⟩ := h.owed.held hrun
  refine .bind ((idFor_bound hb).mono ?_)
  rintro _ _ _ ⟨rfl, rfl, rfl⟩
  refine .bind ((send_owed h.abreast h.owed (h.faithful.weaken id) hb hrun).mono ?_)
  rintro _ _ t ⟨rfl, rfl, ho, hf⟩
  refine (invalidate_owed ho hf).mono ?_
  rintro _ _ t' ⟨rfl, rfl, ho', hf', -⟩
  exact ⟨rfl, rfl, h.abreast, ho', hf', h.sized⟩

theorem Mirrors.rebuffer {m' : Mount} (h : Mirrors setup none unsent m s m₀ s₀) (hino : m'.byIno = m.byIno)
    (hid : m'.byId = m.byId) (hnext : m'.next = m.next) (hseen : m'.seen = m.seen)
    (hwater : m'.highWater = m.highWater) :
    Mirrors setup none unsent m' s m₀ s₀ := by
  obtain ⟨⟨hino₀, hid₀, hnext₀, hplain, hbelow, hnamed⟩, ⟨hnodes, huuid, hcontents, hheld⟩, hf,
    ⟨hreached, hremembered⟩⟩ := h
  rw [← hino] at hino₀ hbelow hnamed hheld hreached hremembered
  rw [← hid] at hid₀ hnamed hcontents
  rw [← hnext] at hnext₀ hbelow hreached hremembered
  rw [← hwater] at hreached hremembered
  rw [← hseen] at hremembered
  exact ⟨⟨hino₀, hid₀, hnext₀, hplain, hbelow, hnamed⟩, ⟨hnodes, huuid, hcontents, hheld⟩, hf, ⟨hreached, hremembered⟩⟩

theorem flush_level {K : Mount → Prop} (h : Level setup K m s m₀ s₀) (ino : ℕ) :
    Meets ideal (flush setup ino) (fun out m' t => (∃ c, out = .ok c)
      ∧ Level setup (fun m => m.pending.lookup ino = none) m' t m₀ s₀) m s := by
  refine .bind (.update ?_)
  dsimp only
  split
  · rename_i run hrun
    have hmid : Mirrors setup none m.pending.lookup (m.dropPending ino) s m₀ s₀ := h.1.rebuffer rfl rfl rfl rfl rfl
    refine .bind (.update ((sendDrained_mirrors hmid hrun).mono ?_))
    rintro _ _ t ⟨rfl, rfl, hend⟩
    refine ⟨⟨_, rfl⟩, ?_, ?_⟩
    · convert hend using 1
      funext i
      rw [Mount.dropPending, lookup_erase, Function.update_apply]
    · exact (lookup_erase ..).trans (if_pos rfl)
  · rename_i hnone
    exact .ok ⟨⟨_, rfl⟩, h.1, hnone⟩

theorem sendAll_mirrors {runs : List (ℕ × PendingWrite)} (h : Mirrors setup none unsent m s m₀ s₀)
    (hnodup : (runs.map Prod.fst).Nodup) (hruns : ∀ i r, unsent i = some r ↔ (i, r) ∈ runs) :
    Meets ideal (sendAll setup runs) (fun out m' t => out = .ok () ∧ m' = m
      ∧ Mirrors setup none (fun _ => none) m t m₀ s₀) m s := by
  induction runs generalizing s unsent with
  | nil =>
    have hnone : unsent = fun _ => none := by
      funext i
      exact Option.eq_none_iff_forall_ne_some.mpr fun r hr => absurd ((hruns i r).mp hr) List.not_mem_nil
    exact .ok ⟨rfl, rfl, hnone ▸ h⟩
  | cons head rest ih =>
    obtain ⟨ino, run⟩ := head
    obtain ⟨hfresh, hnodup'⟩ := List.nodup_cons.mp hnodup
    refine .bind ((sendDrained_mirrors h ((hruns ino run).mpr List.mem_cons_self)).mono ?_)
    rintro _ _ t ⟨rfl, rfl, hmid⟩
    refine ih hmid hnodup' fun i r => ?_
    rw [Function.update_apply]
    split_ifs with hi
    · subst hi
      refine ⟨nofun, fun hmem => absurd (List.mem_map.mpr ⟨_, hmem, rfl⟩) hfresh⟩
    · rw [hruns, List.mem_cons]
      refine or_iff_right fun heq => hi (congrArg Prod.fst heq)

theorem flushAll_level {K : Mount → Prop} (h : Level setup K m s m₀ s₀) :
    Meets ideal (flushAll setup) (fun out m' t => (∃ c, out = .ok c)
      ∧ Level setup (fun m => m.pending = ∅) m' t m₀ s₀) m s := by
  refine .bind (.update (.bind (.update ?_)))
  have hmid : Mirrors setup none m.pending.lookup { m with pending := ∅ } s m₀ s₀ := h.1.rebuffer rfl rfl rfl rfl rfl
  refine (sendAll_mirrors hmid m.drain_nodup fun i r => Mount.mem_drain.symm).mono ?_
  rintro _ _ t ⟨rfl, rfl, hend⟩
  exact ⟨⟨_, rfl⟩, hend, rfl⟩

end Dcfs.Fuse
