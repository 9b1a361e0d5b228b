import Dcfs.State.Consistent

namespace Dcfs

open Machine Tables World

variable {cfg : Config} {w : World}

def FromRows (w : World) (rows : List FileChunkRecord) : Prop :=
  ∃ new : FileChunkRecord, ∀ row ∈ rows,
    (∃ v, ∃ old ∈ w.rowsOf v, row = World.forVersion row.versionId old) ∨
      row = new ∧ ∀ v, ∀ old ∈ w.rowsOf v, old.objectId ≠ new.objectId

namespace FromRows

variable {rows : List FileChunkRecord} {row row' : FileChunkRecord} {v : Uuid}

theorem old (h : FromRows w rows) (hw : Consistent cfg w) (hrow : row ∈ rows) (hrow' : row' ∈ w.rowsOf v)
    (ho : row.objectId = row'.objectId) :
    row = forVersion row.versionId row' ∧ row' = forVersion row'.versionId row := by
  obtain ⟨new, hnew⟩ := h
  rcases hnew row hrow with ⟨v₀, source, hsource, he⟩ | ⟨rfl, hfresh⟩
  · have hobject : source.objectId = row'.objectId := by rw [← ho, he, forVersion]
    have he' := hw.shared hsource hrow' hobject
    constructor
    · rw [he']
      exact he
    · rw [he]
      exact he'
  · exact absurd ho.symm (hfresh v row' hrow')

theorem same (h : FromRows w rows) (hw : Consistent cfg w) (hrow : row ∈ rows) (hrow' : row' ∈ rows)
    (ho : row.objectId = row'.objectId) : row' = forVersion row'.versionId row := by
  obtain ⟨new, hnew⟩ := id h
  rcases hnew row' hrow' with ⟨v₀, source, hsource, he⟩ | ⟨rfl, hfresh⟩
  · have hobject : row.objectId = source.objectId := by rw [ho, he, forVersion]
    have hboth := h.old hw hrow hsource hobject
    rw [he, hboth.2]
    rfl
  · rcases hnew row hrow with ⟨v₀, source, hsource, he⟩ | ⟨rfl, -⟩
    · have hobject : source.objectId = row'.objectId := by rw [← ho, he, forVersion]
      exact absurd hobject (hfresh v₀ source hsource)
    · rfl

end FromRows

namespace Consistent

theorem nextId (hw : Consistent cfg w) : Consistent cfg w.nextId where
  version h := (hw.version h).later (Nat.le_succ _) le_rfl
  distinct h h' := hw.distinct h h'
  manifest h := by
    obtain ⟨rows, hrows, hok⟩ := hw.manifest h
    exact ⟨rows, hrows, hok.mono rfl rfl (fun _ _ _ h => h)⟩
  chunk_version := hw.chunk_version
  shared := hw.shared
  object_lt h := (hw.object_lt h).trans (Nat.lt_succ_self _)
  node := hw.node
  current := hw.current

theorem addVersion (hw : Consistent cfg w) {n : Uuid} {node : NodeRecord} {base : Option Uuid}
    {chunkSize : ℤ} (hnode : w.nodes.lookup n = some node)
    (hsize : (max chunkSize 1).toNat = cfg.partSize) :
    Consistent cfg (w.addVersion n node (w.newVersion n base chunkSize)) := by
  have hfresh : ∀ {id version}, w.versions.lookup id = some version → id ≠ w.nextUuid :=
    fun h => (hw.version h).id_lt.ne
  have hold : ∀ {id version}, (w.addVersion n node (w.newVersion n base chunkSize)).versions.lookup id
      = some version → (id = w.nextUuid ∧ version = w.newVersion n base chunkSize) ∨
        (id ≠ w.nextUuid ∧ w.versions.lookup id = some version) := by
    intro id version h
    simp only [World.addVersion, lookup_insert] at h
    split_ifs at h with hid
    · exact .inl ⟨hid, (Option.some.inj h).symm⟩
    · exact .inr ⟨hid, h⟩
  refine ⟨?_, ?_, ?_, ?_, ?_, ?_, ?_, ?_⟩
  · intro id version h
    rcases hold h with ⟨rfl, rfl⟩ | ⟨-, h⟩
    · exact ⟨rfl, Nat.lt_succ_self _, inI64_zero, hsize, by simp [newVersion], Int.lt_succ _, by simp [newVersion]⟩
    · exact (hw.version h).later (Nat.le_succ _) (Int.le.intro 1 rfl)
  · intro id version id' version' h h' hs hs' ht
    rcases hold h with ⟨rfl, rfl⟩ | ⟨-, h⟩ <;> rcases hold h' with ⟨rfl, rfl⟩ | ⟨-, h'⟩
    · rfl
    · exact absurd ht (hw.version h').created_past.ne'
    · exact absurd ht (hw.version h).created_past.ne
    · exact hw.distinct h h' hs hs' ht
  · intro id version h
    rcases hold h with ⟨rfl, rfl⟩ | ⟨hne, h⟩
    · refine ⟨[], by simp [World.addVersion], ?_⟩
      exact ⟨List.Pairwise.nil, by simp, by simp, by simp⟩
    · obtain ⟨rows, hrows, hok⟩ := hw.manifest h
      refine ⟨rows, ?_, hok.mono rfl rfl (fun _ _ _ h => h)⟩
      simp only [World.addVersion, lookup_insert, if_neg hne, hrows]
  · intro id rows h
    simp only [World.addVersion, lookup_insert] at h ⊢
    split_ifs at h ⊢ with hid
    · exact ⟨_, rfl⟩
    · exact hw.chunk_version h
  · have hrows : ∀ {v row}, row ∈ (w.addVersion n node (w.newVersion n base chunkSize)).rowsOf v →
        row ∈ w.rowsOf v := by
      intro v row hrow
      simp only [World.rowsOf, World.addVersion, lookup_insert] at hrow
      split_ifs at hrow with hid
      · simp at hrow
      · exact hrow
    intro v v' row row' h h'
    exact hw.shared (hrows h) (hrows h')
  · exact fun h => (hw.object_lt h).trans (Nat.lt_succ_self _)
  · intro id node' h
    simp only [World.addVersion, lookup_insert] at h
    split_ifs at h with hid
    · cases h
      subst hid
      exact ⟨(hw.node hnode).id_eq, (hw.node hnode).size_range⟩
    · exact hw.node h
  · intro id node' current h hc
    have hcur : ∃ version, w.versions.lookup current = some version ∧ version.nodeId = id
        ∧ version.state = .committed := by
      simp only [World.addVersion, lookup_insert] at h
      split_ifs at h with hid
      · cases h
        subst hid
        exact hw.current hnode hc
      · exact hw.current h hc
    obtain ⟨version, hv, hrest⟩ := hcur
    refine ⟨version, ?_, hrest⟩
    simp only [World.addVersion, lookup_insert, if_neg (hfresh hv), hv]

theorem keepObject (hw : Consistent cfg w) {o : Uuid} (ho : w.objects.lookup o = none)
    (hlt : o < w.nextUuid) (keeps : Bool) (stored : StoredObject) :
    Consistent cfg (w.keepObject keeps o stored) where
  version h := (hw.version h).later le_rfl (Int.le.intro 1 rfl)
  distinct h h' := hw.distinct h h'
  manifest h := by
    obtain ⟨rows, hrows, hok⟩ := hw.manifest h
    refine ⟨rows, hrows, hok.mono rfl rfl fun row _ stored hs => ?_⟩
    have hne : row.objectId ≠ o := by
      rintro rfl
      simp [ho] at hs
    rw [World.keepObject, lookup_insert, if_neg hne, hs]
  chunk_version := hw.chunk_version
  shared := hw.shared
  object_lt h := by
    rw [World.keepObject, lookup_insert] at h
    split_ifs at h with hid
    · exact hid ▸ hlt
    · exact hw.object_lt h
  node := hw.node
  current := hw.current

theorem setRows (hw : Consistent cfg w) {v : Uuid} {version : FileVersionRecord}
    {rows : List FileChunkRecord} (hv : w.versions.lookup v = some version)
    (hok : ManifestOk cfg w version rows) (hfrom : FromRows w rows) :
    Consistent cfg (w.setRows v rows) where
  version h := (hw.version h).later le_rfl le_rfl
  distinct h h' := hw.distinct h h'
  manifest := by
    intro id version' h
    simp only [World.setRows, lookup_insert]
    split_ifs with hid
    · subst hid
      cases hv.symm.trans h
      exact ⟨rows, rfl, hok.mono rfl rfl (fun _ _ _ h => h)⟩
    · obtain ⟨rows', hrows, hok'⟩ := hw.manifest h
      exact ⟨rows', hrows, hok'.mono rfl rfl (fun _ _ _ h => h)⟩
  chunk_version := by
    intro id rows' h
    simp only [World.setRows, lookup_insert] at h
    split_ifs at h with hid
    · exact ⟨version, hid ▸ hv⟩
    · exact hw.chunk_version h
  shared := by
    have hcases : ∀ {v' row}, row ∈ (w.setRows v rows).rowsOf v' → row ∈ rows ∨ row ∈ w.rowsOf v' := by
      intro v' row hrow
      simp only [World.rowsOf, World.setRows, lookup_insert] at hrow
      split_ifs at hrow
      · exact .inl hrow
      · exact .inr hrow
    intro v₁ v₂ row row' hrow hrow' ho
    rcases hcases hrow with h | h <;> rcases hcases hrow' with h' | h'
    · exact hfrom.same hw h h' ho
    · exact (hfrom.old hw h h' ho).2
    · exact (hfrom.old hw h' h ho.symm).1
    · exact hw.shared h h' ho
  object_lt := hw.object_lt
  node := hw.node
  current := hw.current

theorem of_versions {w' : World} (hw : Consistent cfg w) (hc : w'.chunks = w.chunks)
    (ho : w'.objects = w.objects) (hnext : w'.nextUuid = w.nextUuid)
    (hold : ∀ {id version'}, w'.versions.lookup id = some version' → VersionOk cfg w' id version'
      ∧ ∃ version, w.versions.lookup id = some version ∧ version.nodeId = version'.nodeId)
    (hnew : ∀ {id version}, w.versions.lookup id = some version →
      ∃ version', w'.versions.lookup id = some version')
    (hdistinct : ∀ {id version id' version'}, w'.versions.lookup id = some version →
      w'.versions.lookup id' = some version' → version.state = .staging → version'.state = .staging →
      version.createdAt = version'.createdAt → id = id')
    (hid : ∀ {id node}, w'.nodes.lookup id = some node → NodeOk id node)
    (hcur : ∀ {id node current}, w'.nodes.lookup id = some node →
      node.currentVersionId = some current → ∃ version, w'.versions.lookup current = some version
        ∧ version.nodeId = id ∧ version.state = .committed) :
    Consistent cfg w' where
  version h := (hold h).1
  distinct := hdistinct
  manifest h := by
    obtain ⟨hok', version, hv, hnode⟩ := hold h
    obtain ⟨rows, hrows, hok⟩ := hw.manifest hv
    refine ⟨rows, hc ▸ hrows, hok.mono ?_ hnode.symm (fun _ _ _ h => ho ▸ h)⟩
    exact hok'.id_eq.trans (hw.version hv).id_eq.symm
  chunk_version h := by
    obtain ⟨version, hv⟩ := hw.chunk_version (hc ▸ h)
    exact hnew hv
  shared := by
    simp only [World.rowsOf, hc]
    exact hw.shared
  object_lt h := hnext ▸ hw.object_lt (ho ▸ h)
  node := hid
  current := hcur

end Consistent

theorem ManifestOk.add {version : FileVersionRecord} {rows rows' : List FileChunkRecord}
    (h : ManifestOk cfg w version rows) {row : FileChunkRecord} {plaintext : Bytes}
    (howner : row.versionId = version.id) (hindex : InI64 row.chunkIndex)
    (hsealed : Sealed cfg w version.nodeId row plaintext)
    (hordered : Keyed.Ordered FileChunkRecord.chunkIndex rows')
    (hmem : ∀ {r}, r ∈ rows' → r = row ∨ r ∈ rows) : ManifestOk cfg w version rows' where
  ordered := hordered
  owner r hr := (hmem hr).elim (fun e => e ▸ howner) (h.owner r)
  index r hr := (hmem hr).elim (fun e => e ▸ hindex) (h.index r)
  sealed r hr := (hmem hr).elim (fun e => e ▸ ⟨plaintext, hsealed⟩) (h.sealed r)

theorem ManifestOk.carry {version base : FileVersionRecord} {rows : List FileChunkRecord}
    (h : ManifestOk cfg w version rows) (hnode : base.nodeId = version.nodeId)
    {source : List FileChunkRecord} (hs : ManifestOk cfg w base source) :
    ManifestOk cfg w version
      (World.carry (source.map (forVersion version.id)) rows) := by
  induction source generalizing rows with
  | nil => exact h
  | cons row rest ih =>
    have hrest : ManifestOk cfg w base rest :=
      ⟨hs.ordered.tail, fun r hr => hs.owner r (List.mem_cons_of_mem _ hr),
        fun r hr => hs.index r (List.mem_cons_of_mem _ hr),
        fun r hr => hs.sealed r (List.mem_cons_of_mem _ hr)⟩
    obtain ⟨plaintext, hp⟩ := hs.sealed row List.mem_cons_self
    have hcarried : Sealed cfg w version.nodeId (forVersion version.id row) plaintext :=
      ⟨hnode ▸ hp.stored, hp.hash, hp.size, hp.fits⟩
    have hindex : InI64 (forVersion version.id row).chunkIndex := hs.index row List.mem_cons_self
    exact ih (h.add rfl hindex hcarried (Keyed.ordered_insertNew h.ordered) Keyed.mem_insertNew) hrest

theorem mem_carry_of_mem {source target : List FileChunkRecord} {row : FileChunkRecord} (h : row ∈ target) :
    row ∈ World.carry source target := by
  induction source generalizing target with
  | nil => exact h
  | cons head rest ih => exact ih (Keyed.mem_insertNew_of_mem h)

theorem mem_carry {source target : List FileChunkRecord} {row : FileChunkRecord}
    (h : row ∈ World.carry source target) : row ∈ source ∨ row ∈ target := by
  induction source generalizing target with
  | nil => exact .inr h
  | cons head rest ih =>
    rcases ih h with hrest | htarget
    · exact .inl (List.mem_cons_of_mem _ hrest)
    · rcases Keyed.mem_insertNew htarget with rfl | hmem
      · exact .inl List.mem_cons_self
      · exact .inr hmem

theorem ManifestOk.filter {version : FileVersionRecord} {rows : List FileChunkRecord}
    (h : ManifestOk cfg w version rows) (p : FileChunkRecord → Bool) :
    ManifestOk cfg w version (rows.filter p) where
  ordered := Keyed.ordered_filter h.ordered
  owner r hr := h.owner r (List.mem_of_mem_filter hr)
  index r hr := h.index r (List.mem_of_mem_filter hr)
  sealed r hr := h.sealed r (List.mem_of_mem_filter hr)

end Dcfs
