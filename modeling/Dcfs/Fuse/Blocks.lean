import Dcfs.Fuse.Files

namespace Dcfs.Fuse

open Effects Fs Routine

structure Supplies {σ : Type} (R : Rules Client σ) (inv : Mount → σ → Prop) (nodeId versionId : Uuid)
    (right : ℕ → Bytes → Prop) : Prop where
  load : ∀ index {m s}, inv m s → R.admits (.loadBlock ⟨nodeId, versionId, index⟩) s
    ∧ ∀ r t, R.outcome (.loadBlock ⟨nodeId, versionId, index⟩) s r t → inv m t
      ∧ ∀ block, r = some block → right index block
  fetch : ∀ index {m s}, inv m s → R.admits (.readFileCacheable nodeId (index * blockSize) blockSize) s
    ∧ ∀ r t, R.outcome (.readFileCacheable nodeId (index * blockSize) blockSize) s r t → inv m t
      ∧ ∀ block keep, r = .ok (block, keep) → right index block
  store : ∀ {index block m s}, right index block → inv m s → R.admits (.storeBlock ⟨nodeId, versionId, index⟩ block) s
    ∧ ∀ r t, R.outcome (.storeBlock ⟨nodeId, versionId, index⟩ block) s r t → inv m t

theorem mem_of_lookup {α : Type} {l : List (ℕ × α)} {i : ℕ} {a : α} (h : l.lookup i = some a) : (i, a) ∈ l := by
  induction l with
  | nil => cases h
  | cons head rest ih =>
    obtain ⟨j, b⟩ := head
    rw [List.lookup_cons] at h
    split at h
    · rename_i heq
      cases h
      rw [beq_iff_eq.mp heq]
      exact List.mem_cons_self
    · exact List.mem_cons_of_mem _ (ih h)

theorem exists_lookup {α : Type} {l : List (ℕ × α)} {i : ℕ} (h : i ∈ l.map Prod.fst) : ∃ a, l.lookup i = some a := by
  induction l with
  | nil => cases h
  | cons head rest ih =>
    obtain ⟨j, b⟩ := head
    rw [List.lookup_cons]
    split
    · exact ⟨b, rfl⟩
    · rename_i hne
      exact ih ((List.mem_cons.mp h).resolve_left fun heq => by simp [heq] at hne)

namespace Supplies

variable {σ : Type} {R : Rules Client σ} {inv : Mount → σ → Prop} {nodeId versionId : Uuid} {right : ℕ → Bytes → Prop}
  {m : Mount} {s : σ} (h : Supplies R inv nodeId versionId right)

include h

theorem loadBlocks (indices : List ℕ) (hinv : inv m s) :
    Meets R (loadBlocks nodeId versionId indices) (fun out m' t => ∃ loaded, out = .ok loaded ∧ inv m' t
      ∧ ∀ index block, (index, some block) ∈ loaded → right index block) m s := by
  induction indices generalizing s with
  | nil => exact .ok ⟨[], rfl, hinv, fun _ _ hmem => absurd hmem List.not_mem_nil⟩
  | cons index rest ih =>
    obtain ⟨hadmits, hload⟩ := h.load index hinv
    refine .bind (.ask hadmits fun block t ho => ?_)
    obtain ⟨hinv', hblock⟩ := hload block t ho
    refine .bind ((ih hinv').mono ?_)
    rintro _ m' t' ⟨loaded, rfl, hend, hright⟩
    refine .ok ⟨_, rfl, hend, fun i b hmem => ?_⟩
    rcases List.mem_cons.mp hmem with heq | hrest
    · obtain ⟨rfl, hb⟩ := Prod.mk.inj heq
      exact hblock b hb.symm
    · exact hright i b hrest

theorem fetchBlocks (indices : List ℕ) (hinv : inv m s) :
    Meets R (fetchBlocks nodeId indices) (fun out m' t => ∃ answers, out = .ok answers ∧ inv m' t
      ∧ answers.map Prod.fst = indices
      ∧ ∀ index block keep, (index, .ok (block, keep)) ∈ answers → right index block) m s := by
  induction indices generalizing s with
  | nil => exact .ok ⟨[], rfl, hinv, rfl, fun _ _ _ hmem => absurd hmem List.not_mem_nil⟩
  | cons index rest ih =>
    obtain ⟨hadmits, hfetch⟩ := h.fetch index hinv
    refine .bind (.ask hadmits fun answer t ho => ?_)
    obtain ⟨hinv', hanswer⟩ := hfetch answer t ho
    refine .bind ((ih hinv').mono ?_)
    rintro _ m' t' ⟨answers, rfl, hend, hkeys, hright⟩
    refine .ok ⟨_, rfl, hend, by rw [List.map_cons, hkeys], fun i b keep hmem => ?_⟩
    rcases List.mem_cons.mp hmem with heq | hrest
    · obtain ⟨rfl, hb⟩ := Prod.mk.inj heq
      exact hanswer b keep hb.symm
    · exact hright i b keep hrest

theorem keepBlocks {answers : List (ℕ × Served (Bytes × Bool))}
    (hright : ∀ index block keep, (index, .ok (block, keep)) ∈ answers → right index block) (hinv : inv m s) :
    Meets R (keepBlocks nodeId versionId answers) (fun out m' t => inv m' t ∧ ∀ fetched, out = .ok fetched →
      fetched.map Prod.fst = answers.map Prod.fst ∧ ∀ index block, (index, block) ∈ fetched →
        right index block) m s := by
  induction answers generalizing s with
  | nil =>
    refine .ok ⟨hinv, fun fetched hout => ?_⟩
    cases hout
    exact ⟨rfl, fun _ _ hmem => absurd hmem List.not_mem_nil⟩
  | cons head rest ih =>
    obtain ⟨index, answer⟩ := head
    cases answer with
    | error e => exact .bind (.fail ⟨hinv, nofun⟩)
    | ok answer =>
      obtain ⟨block, keep⟩ := answer
      have hblock := hright index block keep List.mem_cons_self
      have hkept : Meets R (keepBlock ⟨nodeId, versionId, index⟩ (block, keep))
        (fun out m' t => out = .ok () ∧ m' = m ∧ inv m t)
          m s := by
        unfold keepBlock
        split_ifs
        · obtain ⟨hadmits, hstore⟩ := h.store hblock hinv
          exact .ask hadmits fun r t ho => ⟨rfl, rfl, hstore r t ho⟩
        · exact .ok ⟨rfl, rfl, hinv⟩
      refine .bind (.ok (.bind (hkept.mono ?_)))
      rintro _ _ t ⟨rfl, rfl, hinv'⟩
      refine .bind ((ih (fun i b k hmem => hright i b k (List.mem_cons_of_mem _ hmem)) hinv').mono ?_)
      rintro out m' t' ⟨hend, hfetched⟩
      cases out with
      | error e => exact ⟨hend, nofun⟩
      | ok fetched =>
        obtain ⟨hkeys, hall⟩ := hfetched fetched rfl
        refine .ok ⟨hend, fun _ hout => ?_⟩
        cases hout
        refine ⟨by rw [List.map_cons, List.map_cons, hkeys], fun i b hmem => ?_⟩
        rcases List.mem_cons.mp hmem with heq | hrest
        · cases heq
          exact hblock
        · exact hall i b hrest

theorem readBlocks {setup : Setup} (offset size : ℕ) (hinv : inv m s) :
    Meets R (readBlocks setup nodeId versionId offset size) (fun out m' t => inv m' t ∧ ∀ bytes, out = .ok bytes →
      ∃ block : ℕ → Bytes, (∀ index ∈ blocksOf offset size, right index (block index))
        ∧ bytes = (blocksOf offset size).flatMap fun index => blockWindow offset size index (block index)) m s := by
  unfold Fuse.readBlocks blocksOf
  split_ifs with hsize
  · refine .ok ⟨hinv, fun bytes hout => ⟨fun _ => [], ?_, ?_⟩⟩
    · exact fun _ hmem => absurd hmem List.not_mem_nil
    · cases hout
      rfl
  · dsimp only
    generalize List.range' (offset / blockSize) ((offset + size - 1) / blockSize - offset / blockSize + 1) = indices
    refine .bind ((h.loadBlocks indices hinv).mono ?_)
    rintro _ m₁ t₁ ⟨loaded, rfl, hinv₁, hloaded⟩
    refine .bind ((h.fetchBlocks _ hinv₁).mono ?_)
    rintro _ m₂ t₂ ⟨answers, rfl, hinv₂, hkeys, hanswers⟩
    refine .bind ((h.keepBlocks hanswers hinv₂).mono ?_)
    rintro out m₃ t₃ ⟨hinv₃, hfetched⟩
    cases out with
    | error e => exact ⟨hinv₃, nofun⟩
    | ok fetched =>
      obtain ⟨hkeys', hall⟩ := hfetched fetched rfl
      refine .ok ⟨hinv₃, fun bytes hout => ⟨blockAt loaded fetched, fun index hmem => ?_, ?_⟩⟩
      · unfold blockAt
        split
        · rename_i block hjoin
          exact hloaded index block (mem_of_lookup (Option.join_eq_some_iff.mp hjoin))
        · rename_i hjoin
          have hmiss : index ∈ fetched.map Prod.fst := by
            rw [hkeys', hkeys, (setup.answered_perm _).mem_iff]
            exact List.mem_filter.mpr ⟨hmem, by rw [hjoin]; rfl⟩
          obtain ⟨block, hblock⟩ := exists_lookup hmiss
          rw [hblock, Option.getD_some]
          exact hall index block (mem_of_lookup hblock)
      · cases hout
        rfl

end Supplies

end Dcfs.Fuse
