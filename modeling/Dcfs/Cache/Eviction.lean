import Dcfs.Cache.Manager

namespace Dcfs.Cache

open Machine Tables

theorem minByKey_eq_none {α : Type} {key : α → ℤ} {rows : List α} : minByKey key rows = none ↔ rows = [] := by
  cases rows with
  | nil => exact iff_of_true rfl rfl
  | cons a rest =>
    refine iff_of_false ?_ (List.cons_ne_nil a rest)
    rw [minByKey]
    cases minByKey key rest with
    | none => nofun
    | some b =>
      dsimp only
      split_ifs <;> nofun

theorem minByKey_eq_some {α : Type} {key : α → ℤ} {rows : List α} {a : α} (h : minByKey key rows = some a) :
    a ∈ rows ∧ ∀ b ∈ rows, key a ≤ key b := by
  induction rows generalizing a with
  | nil => cases h
  | cons c rest ih =>
    rw [minByKey] at h
    cases hrest : minByKey key rest with
    | none =>
      rw [hrest] at h
      cases h
      rw [minByKey_eq_none.mp hrest]
      simp
    | some b =>
      obtain ⟨hmem, hle⟩ := ih hrest
      rw [hrest] at h
      dsimp only at h
      split_ifs at h with hlt <;> cases h
      · refine ⟨List.mem_cons_of_mem c hmem, fun d hd => ?_⟩
        rcases List.mem_cons.mp hd with rfl | hd
        · exact hlt.le
        · exact hle d hd
      · refine ⟨List.mem_cons_self, fun d hd => ?_⟩
        rcases List.mem_cons.mp hd with rfl | hd
        · exact le_rfl
        · exact (not_lt.mp hlt).trans (hle d hd)

theorem CacheEntry.isEvictable_iff {e : CacheEntry} :
    e.isEvictable = true ↔ e.state = .clean ∧ e.dirtyExtents.ranges = [] := by
  simp [isEvictable, DirtyExtents.isDirty]

theorem Mark.logicalSize_apply (change : Mark) (e : CacheEntry) : (change.apply e).logicalSize = e.logicalSize := by
  cases change with
  | committing =>
    rw [Mark.apply, CacheEntry.markCommitting]
    split_ifs <;> rfl
  | _ => rfl

namespace CacheManager

variable {m m' : CacheManager} {nodeId : Uuid} {e : CacheEntry}

theorem Exact.drop (h : m.Exact) (he : m.entries.lookup nodeId = some e) : (m.drop nodeId e).Exact := by
  have herase := total_erase CacheEntry.logicalSize he
  change m.currentBytes - e.logicalSize = total CacheEntry.logicalSize (m.entries.erase nodeId)
  rw [show m.currentBytes = total CacheEntry.logicalSize m.entries from h]
  omega

theorem Distinct.drop (h : m.Distinct) (nodeId : Uuid) (e : CacheEntry) : (m.drop nodeId e).Distinct := by
  have hsub : ∀ {id x}, (m.drop nodeId e).entries.lookup id = some x → m.entries.lookup id = some x := by
    intro id x hx
    change (m.entries.erase nodeId).lookup id = some x at hx
    rw [lookup_erase] at hx
    split_ifs at hx
    exact hx
  intro id id' x x' hx hx'
  exact h id id' x x' (hsub hx) (hsub hx')

theorem oldest_eq_some {found : Sigma fun _ : Uuid => CacheEntry} (h : m.oldest = some found) :
    m.entries.lookup found.1 = some found.2 ∧ found.2.isEvictable = true
      ∧ ∀ id e, m.entries.lookup id = some e → e.isEvictable = true → found.2.lastAccess ≤ e.lastAccess := by
  obtain ⟨hmem, hle⟩ := minByKey_eq_some h
  obtain ⟨hmem, hevictable⟩ := List.mem_filter.mp hmem
  refine ⟨lookup_eq_some_iff.mpr hmem, hevictable, fun id e he hclean => ?_⟩
  exact hle ⟨id, e⟩ (List.mem_filter.mpr ⟨lookup_eq_some_iff.mp he, hclean⟩)

theorem oldest_eq_none (h : m.oldest = none) (he : m.entries.lookup nodeId = some e) : e.isEvictable = false := by
  have hnil := minByKey_eq_none.mp h
  rw [List.filter_eq_nil_iff] at hnil
  exact Bool.eq_false_iff.mpr (hnil ⟨nodeId, e⟩ (lookup_eq_some_iff.mp he))

structure Evicted (m m' : CacheManager) (removed : List (Sigma fun _ : Uuid => CacheEntry)) : Prop where
  clean : ∀ r ∈ removed, m.entries.lookup r.1 = some r.2 ∧ r.2.state = .clean ∧ r.2.dirtyExtents.ranges = []
  inOrder : removed.Pairwise fun r r' => r.2.lastAccess < r'.2.lastAccess
  kept : ∀ id, m'.entries.lookup id = if id ∈ removed.map Sigma.fst then none else m.entries.lookup id
  later : ∀ id e, m'.entries.lookup id = some e → e.state = .clean → e.dirtyExtents.ranges = [] →
    ∀ r ∈ removed, r.2.lastAccess < e.lastAccess
  needed : ∀ before r after, removed = before ++ r :: after →
    m.byteBudget < m.currentBytes - (before.map fun r => r.2.logicalSize).sum
  budget : m'.byteBudget = m.byteBudget

theorem Evicted.refl (m : CacheManager) : Evicted m m [] := by
  constructor <;> simp

theorem Evicted.cons {found : Sigma fun _ : Uuid => CacheEntry}
    {removed : List (Sigma fun _ : Uuid => CacheEntry)} (hdistinct : m.Distinct) (hover : m.byteBudget < m.currentBytes)
    (hfound : m.oldest = some found) (h : Evicted (m.drop found.1 found.2) m' removed) :
    Evicted m m' (found :: removed) := by
  obtain ⟨hlookup, hclean, hleast⟩ := oldest_eq_some hfound
  have hsub : ∀ {id x}, (m.drop found.1 found.2).entries.lookup id = some x →
      id ≠ found.1 ∧ m.entries.lookup id = some x := by
    intro id x hx
    change (m.entries.erase found.1).lookup id = some x at hx
    rw [lookup_erase] at hx
    split_ifs at hx with hid
    exact ⟨hid, hx⟩
  -- Nothing else was last used at the same time, so that the least is strictly below the others.
  have hlt : ∀ {id x}, (m.drop found.1 found.2).entries.lookup id = some x → x.isEvictable = true →
      found.2.lastAccess < x.lastAccess := by
    intro id x hx hevictable
    obtain ⟨hid, hx⟩ := hsub hx
    refine lt_of_le_of_ne (hleast id x hx hevictable) fun heq => ?_
    exact hid (hdistinct _ _ _ _ hlookup hx heq).symm
  refine ⟨?_, ?_, ?_, ?_, ?_, h.budget⟩
  · intro r hr
    rcases List.mem_cons.mp hr with rfl | hr
    · exact ⟨hlookup, CacheEntry.isEvictable_iff.mp hclean⟩
    · obtain ⟨hr, hrest⟩ := h.clean r hr
      exact ⟨(hsub hr).2, hrest⟩
  · rw [List.pairwise_cons]
    refine ⟨fun r hr => ?_, h.inOrder⟩
    obtain ⟨hr, hrest⟩ := h.clean r hr
    exact hlt hr (CacheEntry.isEvictable_iff.mpr hrest)
  · intro id
    rw [h.kept id, List.map_cons]
    change (if id ∈ removed.map Sigma.fst then none else (m.entries.erase found.1).lookup id) = _
    rw [lookup_erase]
    by_cases hid : id = found.1
    · rw [if_pos hid, ite_self, if_pos (List.mem_cons.mpr (.inl hid))]
    · rw [if_neg hid]
      exact if_congr (by rw [List.mem_cons, or_iff_right hid]) rfl rfl
  · intro id x hx hstate hranges r hr
    rcases List.mem_cons.mp hr with rfl | hr
    · have hkept := h.kept id
      rw [hx] at hkept
      split_ifs at hkept
      exact hlt hkept.symm (CacheEntry.isEvictable_iff.mpr ⟨hstate, hranges⟩)
    · exact h.later id x hx hstate hranges r hr
  · intro before r after heq
    cases before with
    | nil => exact hover
    | cons first before =>
      cases heq
      rw [List.map_cons, List.sum_cons, ← Nat.sub_sub]
      exact h.needed before r after rfl

def Settled (m : CacheManager) : Prop :=
  m.currentBytes ≤ m.byteBudget
    ∨ ∀ id e, m.entries.lookup id = some e → ¬ (e.state = .clean ∧ e.dirtyExtents.ranges = [])

theorem settled_of_evictOne (h : m.evictOne = none) : m.Settled := by
  rw [evictOne] at h
  split_ifs at h with hover
  · right
    intro id e he hclean
    have hkept := oldest_eq_none (Option.map_eq_none_iff.mp h) he
    rw [CacheEntry.isEvictable_iff.mpr hclean] at hkept
    cases hkept
  · exact .inl (not_lt.mp hover)

theorem length_erase {t : Table Uuid CacheEntry} (h : t.lookup nodeId = some e) :
    (t.erase nodeId).entries.length + 1 = t.entries.length := by
  have hlen := (values_perm_erase h).length_eq
  simpa [values] using hlen.symm

theorem evictRounds_evicted {n : ℕ} (hn : m.entries.entries.length ≤ n) (hexact : m.Exact) (hdistinct : m.Distinct) :
    (∃ removed, Evicted m (evictRounds n m) removed) ∧ (evictRounds n m).Exact ∧ (evictRounds n m).Settled := by
  induction n generalizing m with
  | zero =>
    refine ⟨⟨[], Evicted.refl m⟩, hexact, .inr fun id e he _ => ?_⟩
    have hmem : (⟨id, e⟩ : Sigma fun _ : Uuid => CacheEntry) ∈ m.entries.entries := lookup_eq_some_iff.mp he
    rw [List.length_eq_zero_iff.mp (Nat.le_zero.mp hn)] at hmem
    cases hmem
  | succ n ih =>
    cases hone : m.evictOne with
    | none =>
      rw [evictRounds, hone]
      exact ⟨⟨[], Evicted.refl m⟩, hexact, settled_of_evictOne hone⟩
    | some next =>
      rw [evictRounds, hone]
      rw [evictOne] at hone
      split_ifs at hone with hover
      obtain ⟨found, hfound, rfl⟩ := Option.map_eq_some_iff.mp hone
      have hlookup := (oldest_eq_some hfound).1
      have hlen := length_erase hlookup
      obtain ⟨⟨removed, hremoved⟩, hexact, hsettled⟩ :=
        ih (m := m.drop found.1 found.2) (by change (m.entries.erase found.1).entries.length ≤ n; omega)
          (hexact.drop hlookup) (hdistinct.drop _ _)
      exact ⟨⟨found :: removed, hremoved.cons hdistinct hover hfound⟩, hexact, hsettled⟩

theorem exact_getOrCreate (hexact : m.Exact) {baseVersionId : Option Uuid} {generation size : ℕ} {created now : Time}
    (hsize : (m.getOrCreate nodeId baseVersionId generation size created now).size < 2 ^ 64) :
    (m.getOrCreate nodeId baseVersionId generation size created now).Exact := by
  have htouch : ∀ t : Table Uuid CacheEntry, total CacheEntry.logicalSize (modify nodeId (CacheEntry.touch now) t) =
      total CacheEntry.logicalSize t := fun t => total_modify fun _ => rfl
  rw [CacheManager.size] at hsize
  rw [CacheManager.Exact, CacheManager.size] at hexact ⊢
  cases hlookup : m.entries.lookup nodeId with
  | some e =>
    simp only [getOrCreate, hlookup, htouch]
    exact hexact
  | none =>
    simp only [getOrCreate, hlookup, htouch, total_insert CacheEntry.logicalSize hlookup] at hsize ⊢
    change size + _ < 2 ^ 64 at hsize
    rw [hexact, addU64_of_lt (by omega)]
    exact Nat.add_comm _ _

theorem remove_cases (m : CacheManager) (nodeId : Uuid) :
    (m.remove nodeId).2 = m
      ∨ ∃ e, m.entries.lookup nodeId = some e ∧ e.isEvictable = true ∧ (m.remove nodeId).2 = m.drop nodeId e := by
  rw [remove]
  cases hlookup : m.entries.lookup nodeId with
  | none => exact .inl rfl
  | some e =>
    dsimp only
    by_cases hclean : e.isEvictable = true
    · rw [if_pos hclean]
      exact .inr ⟨e, rfl, hclean, rfl⟩
    · rw [if_neg hclean]
      exact .inl rfl

theorem Reaches.exact (h : Reaches m) : m.Exact ∧ m.Distinct := by
  induction h with
  | new cacheDir byteBudget => exact ⟨rfl, fun id id' e e' he => nomatch he⟩
  | @step event m h hsize hdistinct ih =>
    refine ⟨?_, hdistinct⟩
    cases event with
    | getOrCreate => exact exact_getOrCreate ih.1 hsize
    | get nodeId now => exact ih.1.trans (total_modify (f := CacheEntry.touch now) fun _ => rfl).symm
    | remove nodeId =>
      change (m.remove nodeId).2.Exact
      rcases remove_cases m nodeId with hsame | ⟨e, hlookup, -, hdropped⟩
      · rw [hsame]
        exact ih.1
      · rw [hdropped]
        exact ih.1.drop hlookup
    | evictIfNeeded => exact (evictRounds_evicted le_rfl ih.1 ih.2).2.1
    | mark nodeId change => exact ih.1.trans (total_modify change.logicalSize_apply).symm

theorem isSome_lookup_modify {t : Table Uuid CacheEntry} {f : CacheEntry → CacheEntry} {id : Uuid}
    (h : t.lookup id = some e) : ∃ e', (modify nodeId f t).lookup id = some e' := by
  rw [lookup_modify, h]
  split_ifs
  · exact ⟨f e, rfl⟩
  · exact ⟨e, rfl⟩

theorem Reaches.keeps_unsaved (h : Reaches m) (event : CacheEvent) (he : m.entries.lookup nodeId = some e)
    (hunsaved : ¬ (e.state = .clean ∧ e.dirtyExtents.ranges = [])) :
    ∃ e', (event.apply m).entries.lookup nodeId = some e' := by
  cases event with
  | getOrCreate id baseVersionId generation size created now =>
    change ∃ e', (m.getOrCreate id baseVersionId generation size created now).entries.lookup nodeId = some e'
    cases hlookup : m.entries.lookup id with
    | some x =>
      simp only [getOrCreate, hlookup]
      exact isSome_lookup_modify he
    | none =>
      simp only [getOrCreate, hlookup]
      apply isSome_lookup_modify (e := e)
      rw [lookup_insert, if_neg, he]
      rintro rfl
      rw [hlookup] at he
      cases he
  | get id now => exact isSome_lookup_modify he
  | remove id =>
    refine ⟨e, ?_⟩
    change (m.remove id).2.entries.lookup nodeId = some e
    rcases remove_cases m id with hsame | ⟨x, hlookup, hclean, hdropped⟩
    · rw [hsame]
      exact he
    · rw [hdropped]
      change (m.entries.erase id).lookup nodeId = some e
      rw [lookup_erase, if_neg, he]
      rintro rfl
      rw [hlookup] at he
      cases he
      exact hunsaved (CacheEntry.isEvictable_iff.mp hclean)
  | evictIfNeeded =>
    obtain ⟨⟨removed, hremoved⟩, -⟩ := evictRounds_evicted le_rfl h.exact.1 h.exact.2
    refine ⟨e, (hremoved.kept nodeId).trans ?_⟩
    rw [if_neg, he]
    intro hmem
    obtain ⟨r, hr, rfl⟩ := List.mem_map.mp hmem
    obtain ⟨hlookup, hclean⟩ := hremoved.clean r hr
    rw [he] at hlookup
    cases hlookup
    exact hunsaved hclean
  | mark id change => exact isSome_lookup_modify he

end CacheManager

theorem cache_drops_clean_only {m : CacheManager} (h : CacheManager.Reaches m) :
    m.currentBytes = total CacheEntry.logicalSize m.entries
    ∧ (∃ removed, CacheManager.Evicted m m.evictIfNeeded removed)
    ∧ m.evictIfNeeded.Settled
    ∧ ∀ (event : CacheEvent) (id : Uuid) (e : CacheEntry), m.entries.lookup id = some e →
      ¬ (e.state = .clean ∧ e.dirtyExtents.ranges = []) →
        ∃ e', (event.apply m).entries.lookup id = some e' := by
  obtain ⟨hexact, hdistinct⟩ := h.exact
  obtain ⟨hevicted, -, hsettled⟩ := CacheManager.evictRounds_evicted le_rfl hexact hdistinct
  exact ⟨hexact, hevicted, hsettled, fun event _ _ => h.keeps_unsaved event⟩

theorem CacheManager.distinct_of_nodup {m : CacheManager}
    (h : (m.entries.entries.map fun e => e.2.lastAccess).Nodup) : m.Distinct := by
  intro id id' e e' he he' haccess
  have hsame := List.inj_on_of_nodup_map h (lookup_eq_some_iff.mp he) (lookup_eq_some_iff.mp he') haccess
  exact congrArg Sigma.fst hsame

def filling : List CacheEvent :=
  [.getOrCreate 1 none 0 40 0 1, .mark 1 (.dirty ⟨0, 8⟩), .getOrCreate 2 none 0 30 2 3, .getOrCreate 3 none 0 30 4 5]

def overfull : CacheManager := filling.foldl (fun m event => event.apply m) (.new "cache" 75)

theorem overfull_reached : overfull.Reaches := by
  have hfirst := CacheManager.Reaches.step (.getOrCreate 1 none 0 40 0 1) (.new "cache" 75) (by decide)
    (CacheManager.distinct_of_nodup (by decide))
  have hdirty := hfirst.step (.mark 1 (.dirty ⟨0, 8⟩)) (by decide) (CacheManager.distinct_of_nodup (by decide))
  have hsecond := hdirty.step (.getOrCreate 2 none 0 30 2 3) (by decide) (CacheManager.distinct_of_nodup (by decide))
  exact hsecond.step (.getOrCreate 3 none 0 30 4 5) (by decide) (CacheManager.distinct_of_nodup (by decide))

theorem overfull_drops_clean_only : overfull.evictIfNeeded.entries.keys = [3, 1]
    ∧ ∃ removed, CacheManager.Evicted overfull overfull.evictIfNeeded removed :=
  ⟨by decide, (cache_drops_clean_only overfull_reached).2.1⟩

end Dcfs.Cache
