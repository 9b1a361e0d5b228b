import Dcfs.Fuse.Assembly
import Dcfs.Fuse.Blocks
import Dcfs.Fuse.CatchUp
import Dcfs.Fuse.Looks

namespace Dcfs.Fuse

open Effects Fs Tables Routine

variable {setup : Setup} {K : Mount → Prop} {m m₀ : Mount} {s s₀ : Ideal} {id v : Uuid}
    {ino offset size expected fileSize : ℕ}

theorem readExactly_ideal (hhas : s.Has id) (hlen : offset + expected ≤ (s.contents id).length) :
    Meets ideal (readExactly id offset expected fileSize)
      (fun out m' t => out = .ok (s.slice id offset expected) ∧ m' = m ∧ t = s) m s := by
  have hslice : ¬(s.slice id offset expected).length < expected := by
    rw [Ideal.slice, List.length_take, List.length_drop]
    omega
  refine .bind (.ask hhas ?_)
  rintro (e | bytes) t ⟨-, hr⟩
  · exact hr.elim
  · obtain ⟨rfl, rfl⟩ := hr
    refine .bind (.ok ?_)
    dsimp only
    rw [if_neg hslice]
    exact .ok ⟨rfl, rfl, rfl⟩

theorem Faithful.recached (h : Faithful setup none s) {cache : BlockCache}
    (hcache : ∀ {key data}, cache.files.lookup key = some data → s.cache.files.lookup key = some data
      ∨ setup.hasCache = true ∧ s.Has key.nodeId ∧ data = s.slice key.nodeId (key.index * blockSize) blockSize) :
    Faithful setup none { s with cache := cache } := by
  refine ⟨fun hc => ?_⟩
  rcases hcache hc with hold | ⟨hhas, hdata⟩
  · exact h.cached hold
  · exact ⟨hhas, fun _ => hdata⟩

theorem Faithful.loaded (h : Faithful setup none s) (key : Key) :
    Faithful setup none { s with cache := (s.cache.load key).2 } := by
  refine h.recached fun hc => .inl ?_
  rw [BlockCache.load_files] at hc
  exact hc

theorem slice_block (s : Ideal) (id : Uuid) (index : ℕ) :
    s.slice id (index * blockSize) blockSize = blockOf (s.contents id) index := by
  rw [Ideal.slice, blockOf]

theorem Faithful.stored (h : Faithful setup none s) (hcache : setup.hasCache = true) (hhas : s.Has id) (index : ℕ) :
    Faithful setup none { s with cache := s.cache.store ⟨id, v, index⟩ (blockOf (s.contents id) index) } := by
  refine h.recached fun hc => ?_
  rcases BlockCache.lookup_store hc with ⟨rfl, rfl⟩ | hold
  · exact .inr ⟨hcache, hhas, (slice_block s id index).symm⟩
  · exact .inl hold

theorem loadBlocks_ideal (h : Faithful setup none s) (indices : List ℕ) :
    Meets ideal (loadBlocks id v indices) (fun out m' t => ∃ loaded cache, out = .ok loaded ∧ m' = m
      ∧ t = { s with cache := cache } ∧ Faithful setup none t
      ∧ ∀ index block, (index, some block) ∈ loaded → block = blockOf (s.contents id) index) m s := by
  induction indices generalizing s with
  | nil => exact .ok ⟨[], s.cache, rfl, rfl, rfl, h, fun _ _ hmem => absurd hmem List.not_mem_nil⟩
  | cons index rest ih =>
    refine .bind (.ask trivial ?_)
    rintro block _ ⟨-, rfl, rfl⟩
    refine .bind ((ih (h.loaded _)).mono ?_)
    rintro _ _ _ ⟨loaded, cache, rfl, rfl, rfl, hfaithful, hloaded⟩
    refine .ok ⟨_, cache, rfl, rfl, rfl, hfaithful, fun index' block' hmem => ?_⟩
    rcases List.mem_cons.mp hmem with heq | hrest
    · obtain ⟨rfl, hblock⟩ := Prod.mk.inj heq
      rw [← slice_block]
      exact ((h.cached (BlockCache.load_eq_some hblock.symm)).2 nofun).2
    · exact hloaded index' block' hrest

def Fetched (s : Ideal) (id : Uuid) (indices : List ℕ) (answers : List (ℕ × Served (Bytes × Bool))) : Prop :=
  ∃ keep : ℕ → Bool, answers = indices.map fun index => (index, .ok (blockOf (s.contents id) index, keep index))

theorem fetchBlocks_ideal (hhas : s.Has id) (indices : List ℕ) (hnodup : indices.Nodup) :
    Meets ideal (fetchBlocks id indices)
      (fun out m' t => ∃ answers, out = .ok answers ∧ Fetched s id indices answers ∧ m' = m ∧ t = s) m s := by
  induction indices with
  | nil => exact .ok ⟨[], rfl, ⟨fun _ => false, rfl⟩, rfl, rfl⟩
  | cons index rest ih =>
    obtain ⟨hfresh, hrest⟩ := List.nodup_cons.mp hnodup
    refine .bind (.ask hhas ?_)
    rintro (e | ⟨block, keep⟩) t ⟨-, hr⟩
    · exact hr.elim
    · obtain ⟨rfl, rfl⟩ : block = s.slice id (index * blockSize) blockSize ∧ t = s := hr
      rw [slice_block]
      refine .bind ((ih hrest).mono ?_)
      rintro _ _ _ ⟨answers, rfl, ⟨others, rfl⟩, rfl, rfl⟩
      refine .ok ⟨_, rfl, ⟨Function.update others index keep, ?_⟩, rfl, rfl⟩
      rw [List.map_cons, Function.update_self]
      refine congrArg _ (List.map_congr_left fun i hi => ?_)
      have hne : i ≠ index := fun heq => hfresh (heq ▸ hi)
      rw [Function.update_of_ne hne]

theorem keepBlock_ideal (h : Faithful setup none s) (hcache : setup.hasCache = true) (hhas : s.Has id) (index : ℕ)
    (keep : Bool) : Meets ideal (keepBlock ⟨id, v, index⟩ (blockOf (s.contents id) index, keep))
      (fun out m' t => out = .ok () ∧ m' = m ∧ ∃ cache, t = { s with cache := cache } ∧ Faithful setup none t) m s := by
  unfold keepBlock
  split_ifs
  · refine .ask trivial ?_
    rintro _ _ ⟨-, rfl | rfl⟩
    · exact ⟨rfl, rfl, _, rfl, h.stored hcache hhas index⟩
    · exact ⟨rfl, rfl, _, rfl, h⟩
  · exact .ok ⟨rfl, rfl, _, rfl, h⟩

theorem keepBlocks_ideal (h : Faithful setup none s) (hcache : setup.hasCache = true) (hhas : s.Has id)
    {indices : List ℕ} {answers : List (ℕ × Served (Bytes × Bool))} (hanswers : Fetched s id indices answers) :
    Meets ideal (keepBlocks id v answers) (fun out m' t =>
      out = .ok (indices.map fun index => (index, blockOf (s.contents id) index)) ∧ m' = m
        ∧ ∃ cache, t = { s with cache := cache } ∧ Faithful setup none t) m s := by
  obtain ⟨keep, rfl⟩ := hanswers
  induction indices generalizing s with
  | nil => exact .ok ⟨rfl, rfl, _, rfl, h⟩
  | cons index rest ih =>
    refine .bind (.ok (.bind ((keepBlock_ideal h hcache hhas index (keep index)).mono ?_)))
    rintro _ _ _ ⟨rfl, rfl, cache, rfl, hfaithful⟩
    refine .bind ((ih hfaithful hhas).mono ?_)
    rintro _ _ _ ⟨rfl, rfl, cache', rfl, hfaithful'⟩
    exact .ok ⟨rfl, rfl, cache', rfl, hfaithful'⟩

theorem lookup_pairs {α : Type} (f : ℕ → α) {l : List ℕ} {i : ℕ} (h : i ∈ l) :
    (l.map fun j => (j, f j)).lookup i = some (f i) := by
  induction l with
  | nil => cases h
  | cons j rest ih =>
    rw [List.map_cons, List.lookup_cons]
    split
    · rename_i heq
      rw [beq_iff_eq.mp heq]
    · rename_i hne
      exact ih ((List.mem_cons.mp h).resolve_left fun heq => by simp [heq] at hne)

theorem readBlocks_ideal (h : Faithful setup none s) (hcache : setup.hasCache = true) (hhas : s.Has id)
    (hsize : size ≠ 0)
    (hlen : offset + size ≤ (s.contents id).length) :
    Meets ideal (readBlocks setup id v offset size) (fun out m' t => out = .ok (s.slice id offset size) ∧ m' = m
      ∧ ∃ cache, t = { s with cache := cache } ∧ Faithful setup none t) m s := by
  unfold readBlocks
  rw [if_neg hsize]
  dsimp only
  generalize hindices : List.range' (offset / blockSize)
    ((offset + size - 1) / blockSize - offset / blockSize + 1) = indices
  have hnodup : indices.Nodup := hindices ▸ List.nodup_range'
  refine .bind ((loadBlocks_ideal h indices).mono ?_)
  rintro _ _ _ ⟨loaded, cache, rfl, rfl, rfl, hfaithful, hloaded⟩
  dsimp only
  have hhas' : Ideal.Has { s with cache := cache } id := hhas
  generalize hmisses : (indices.filter fun index => (loaded.lookup index).join.isNone) = misses
  have hmisses' : (setup.answered misses).Perm misses := setup.answered_perm misses
  have hnodup' : (setup.answered misses).Nodup := by
    rw [hmisses'.nodup_iff, ← hmisses]
    exact hnodup.filter _
  refine .bind ((fetchBlocks_ideal hhas' _ hnodup').mono ?_)
  rintro _ _ _ ⟨answers, rfl, hanswers, rfl, rfl⟩
  refine .bind ((keepBlocks_ideal hfaithful hcache hhas' hanswers).mono ?_)
  rintro _ _ _ ⟨rfl, rfl, cache', rfl, hfaithful'⟩
  refine .ok ⟨?_, rfl, cache', rfl, hfaithful'⟩
  have hblock : ∀ index ∈ indices,
    blockAt loaded ((setup.answered misses).map fun i => (i, blockOf (s.contents id) i)) index
      = blockOf (s.contents id) index := by
    intro index hmem
    unfold blockAt
    split
    · rename_i block hjoin
      exact hloaded index block (mem_of_lookup (Option.join_eq_some_iff.mp hjoin))
    · rename_i hjoin
      have hmiss : index ∈ setup.answered misses := by
        rw [hmisses'.mem_iff, ← hmisses]
        exact List.mem_filter.mpr ⟨hmem, by rw [hjoin]; rfl⟩
      rw [lookup_pairs _ hmiss, Option.getD_some]
  have hwindows : (indices.flatMap fun index => blockWindow offset size index (blockAt loaded _ index))
      = indices.flatMap fun index => blockWindow offset size index (blockOf (s.contents id) index) :=
    List.flatMap_congr fun index hmem => congrArg _ (hblock index hmem)
  rw [hwindows, ← hindices, flatMap_blockWindow hsize hlen]
  rfl

theorem Ideal.slice_expected (s : Ideal) (id : Uuid) (offset size : ℕ) :
    s.slice id offset (expectedBytes size (s.contents id).length offset) = s.slice id offset size := by
  rw [Ideal.slice, Ideal.slice, expectedBytes, ← List.length_drop, List.take_eq_take_iff]
  simp

theorem expected_le (h : expectedBytes size fileSize offset ≠ 0) :
    offset + expectedBytes size fileSize offset ≤ fileSize := by
  unfold expectedBytes at h ⊢
  omega

theorem slice_of_expected_zero (h : expectedBytes size (s.contents id).length offset = 0) :
    s.slice id offset size = [] := by
  rw [← s.slice_expected, h, Ideal.slice, List.take_zero]

theorem report_ideal (hhas : s.Has id) :
    Meets ideal (Direct.report id) (fun out m' t => (∃ node, out = .ok node ∧ node.id = id ∧ s.Describes node)
      ∧ m' = m ∧ t = s) m s := by
  refine .bind (.ask hhas ?_)
  rintro (e | node) t ⟨-, hr⟩
  · exact hr.elim
  · obtain ⟨hid, hnode, rfl⟩ := hr
    exact .ok ⟨⟨node, rfl, hid, hnode⟩, rfl, rfl⟩

theorem directRead_ideal (hhas : s.Has id) :
    Meets ideal (Direct.report id >>= fun node =>
        if expectedBytes size node.size offset = 0 then pure []
        else readExactly id offset (expectedBytes size node.size offset) node.size)
      (fun out m' t => out = .ok (s.slice id offset size) ∧ m' = m ∧ t = s) m s := by
  refine .bind ((report_ideal hhas).mono ?_)
  rintro _ _ _ ⟨⟨node, rfl, rfl, -, hsize⟩, rfl, rfl⟩
  dsimp only
  rw [hsize]
  split_ifs with hzero
  · exact .ok ⟨by rw [slice_of_expected_zero hzero], rfl, rfl⟩
  · refine (readExactly_ideal hhas (expected_le hzero)).mono ?_
    rintro _ _ _ ⟨rfl, rfl, rfl⟩
    exact ⟨by rw [Ideal.slice_expected], rfl, rfl⟩

theorem ends_report {y : NodeResponse → Fs Bytes} {out : Served Bytes} {m₁ : Mount} {s₁ : Ideal}
    (h : Program.Ends ideal ((Direct.report id >>= y) m₀) s₀ (out, m₁) s₁) : s₀.Has id := by
  obtain ⟨_, _, _, hreport, -⟩ := ends_bind h
  obtain ⟨_, _, _, hask, -⟩ := ends_bind hreport
  cases hask with
  | call hr _ => exact hr.1

theorem Level.recached (h : Level setup K m s m₀ s₀) {cache : BlockCache}
    (hf : Faithful setup none { s with cache := cache }) :
    Level setup K m { s with cache := cache } m₀ s₀ :=
  ⟨⟨h.1.abreast, h.1.owed.cache cache, hf, h.1.sized⟩, h.2⟩

theorem readMeta_ideal (hK : Stable K) (hnone : ∀ m, K m → m.pending.lookup ino = none) (h : Level setup K m s m₀ s₀)
    (hb : m.byIno.lookup ino = some id) (hhas : s₀.Has id) :
    Meets ideal (readMeta ino id) (fun out m' t => (∃ v, out = .ok (v, (s.contents id).length)) ∧ t = s
      ∧ Level setup K m' s m₀ s₀) m s := by
  have hcontents := h.contents_eq hb (hnone m h.2)
  refine .bind (.update ?_)
  dsimp only
  split
  · rename_i remembered hwater hseen
    obtain ⟨v, fileSize⟩ := remembered
    have hsize := ((h.1.sized.remembered hseen).2 id hb).2 hwater
    exact .ok ⟨⟨v, by rw [hsize, hcontents]⟩, rfl, h⟩
  · refine .bind (.ask ((Ideal.has_congr h.1.owed.nodes).mpr hhas) ?_)
    rintro (e | node) t ⟨-, hr⟩
    · exact hr.elim
    · obtain ⟨rfl, hnode, rfl⟩ := hr
      have hsize : node.size = (s₀.contents node.id).length := by rw [hnode.2, hcontents]
      refine .bind (.ok (.bind (.update (.ok ⟨⟨node.currentVersionId, by rw [hnode.2]⟩, rfl, ?_⟩))))
      obtain ⟨⟨habreast, howed, hfaithful, hsized⟩, hm⟩ := h
      exact ⟨⟨⟨habreast.byIno, habreast.byId, habreast.next, habreast.plain, habreast.below, habreast.named⟩,
        ⟨howed.nodes, howed.nextUuid, howed.contents, howed.held⟩, hfaithful, hsized.remember habreast hb hhas hsize⟩,
        hK.remember ino node hm⟩

theorem readRest_twin (hK : Stable K) (hnone : ∀ m, K m → m.pending.lookup ino = none) :
    Twin ideal (Level setup K) (Level setup K)
      (fun bytes bytes₀ m s m₀ s₀ => Level setup K m s m₀ s₀ ∧ bytes₀ = bytes) (readRest setup ino offset size)
      (Direct.read ino offset size) := by
  refine .bind (idFor_twin ino (fun _ _ _ _ h => h.1.abreast) fun _ _ _ _ h _ => h) fun id id₀ => ?_
  rintro m s m₀ s₀ out₀ m₁ s₁ ⟨hlevel, rfl, hb⟩ he
  have hhas := ends_report he
  obtain ⟨rfl, rfl, rfl⟩ := (directRead_ideal hhas).ends he
  have hhas' := (Ideal.has_congr hlevel.1.owed.nodes).mpr hhas
  have hcontents := hlevel.contents_eq hb (hnone m hlevel.2)
  have hslice : s₁.slice id₀ offset size = s.slice id₀ offset size := by rw [Ideal.slice, Ideal.slice, hcontents]
  refine .bind ((readMeta_ideal hK hnone hlevel hb hhas).mono ?_)
  rintro _ m' s ⟨⟨v, rfl⟩, rfl, hlevel'⟩
  dsimp only
  split_ifs with hzero
  · exact .ok ⟨hlevel', by rw [hslice, slice_of_expected_zero hzero]⟩
  · have hexact : ∀ fileSize, Meets ideal
      (readExactly id₀ offset (expectedBytes size (s.contents id₀).length offset) fileSize)
        (fun out m t => Alike (Level setup K)
          (fun bytes bytes₀ m s m₀ s₀ => Level setup K m s m₀ s₀ ∧ bytes₀ = bytes) out
          (.ok (s₁.slice id₀ offset size)) m t m₁ s₁) m' s := by
      intro fileSize
      refine (readExactly_ideal hhas' (expected_le hzero)).mono ?_
      rintro _ _ _ ⟨rfl, rfl, rfl⟩
      exact ⟨hlevel', by rw [hslice, Ideal.slice_expected]⟩
    split
    · rename_i hcache
      refine .bind ((readBlocks_ideal hlevel'.1.faithful hcache hhas' hzero (expected_le hzero)).mono ?_)
      rintro _ _ _ ⟨rfl, rfl, cache, rfl, hfaithful⟩
      have hfull : ¬(s.slice id₀ offset (expectedBytes size (s.contents id₀).length offset)).length
          < expectedBytes size (s.contents id₀).length offset := by
        have hle := expected_le hzero
        rw [Ideal.slice, List.length_take, List.length_drop]
        omega
      dsimp only
      rw [if_neg hfull]
      exact .ok ⟨hlevel'.recached hfaithful, by rw [hslice, Ideal.slice_expected]⟩
    · exact hexact _

end Dcfs.Fuse
