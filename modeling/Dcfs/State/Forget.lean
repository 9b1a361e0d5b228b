import Dcfs.State.Removal

namespace Dcfs

open Machine Tables World Exec

variable {cfg : Config} {faults : Faults} {w u : World}

theorem referencedObjects_forget (b : Backend) (o : Uuid) :
    (w.forgetObject b o).2.referencedObjects = w.referencedObjects.filter (· != o) := by
  simp only [World.referencedObjects, World.forgetObject, values, mapValues, List.map_map,
    List.flatMap_map, List.filter_flatMap, List.filter_map]
  rfl

section forget

variable {b : Backend} {o : Uuid}

def Dropped (o : Uuid) (w u : World) : Prop := u = w.tick ∨ u = w.dropObject o

theorem Dropped.referencedObjects (h : Dropped o w u) : u.referencedObjects = w.referencedObjects := by
  rcases h with rfl | rfl <;> rfl

theorem Dropped.storedObjects (h : Dropped o w u) :
    u.storedObjects = w.storedObjects ∨ u.storedObjects = w.storedObjects.erase o := by
  rcases h with rfl | rfl
  · exact .inl rfl
  · exact .inr rfl

theorem referenced_forget_le (h : Dropped o w u) :
    (u.forgetObject b o).2.referencedObjects.length ≤ w.referencedObjects.length := by
  rw [referencedObjects_forget, h.referencedObjects]
  exact List.length_filter_le _ _

theorem stored_forget_le (h : Dropped o w u) :
    (u.forgetObject b o).2.storedObjects.keys.length ≤ w.storedObjects.keys.length := by
  have hu : u.storedObjects.keys.length ≤ w.storedObjects.keys.length := by
    rcases h.storedObjects with he | he
    · rw [he]
    · rw [he, AList.keys_erase]
      exact List.length_erase_le
  cases b with
  | memory => exact hu
  | postgres =>
    change (u.storedObjects.erase o).keys.length ≤ _
    rw [AList.keys_erase]
    exact List.length_erase_le.trans hu

theorem stored_forget_lt (h : Dropped o w u) (ho : o ∈ w.storedObjects.keys) :
    (u.forgetObject .postgres o).2.storedObjects.keys.length < w.storedObjects.keys.length := by
  have hlt : (w.storedObjects.keys.erase o).length < w.storedObjects.keys.length := by
    have := List.length_pos_of_mem ho
    rw [List.length_erase_of_mem ho]
    omega
  change (u.storedObjects.erase o).keys.length < _
  rcases h.storedObjects with he | he
  · rwa [he, AList.keys_erase]
  · rw [he, AList.keys_erase, AList.keys_erase]
    exact List.length_erase_le.trans_lt hlt

theorem weight_forget_lt (h : Dropped o w u) (hnamed : Named b w o) :
    weight (u.forgetObject b o).2 < weight w := by
  rcases hnamed with hrow | ⟨rfl, hstored⟩
  · refine Nat.add_lt_add_of_lt_of_le ?_ (stored_forget_le h)
    rw [referencedObjects_forget, h.referencedObjects]
    exact List.length_filter_lt_length_iff_exists.mpr ⟨o, hrow, by simp⟩
  · exact Nat.add_lt_add_of_le_of_lt (referenced_forget_le h) (stored_forget_lt h hstored)

theorem swept_forget (h : Dropped o w u) : Swept [o] w (u.forgetObject b o).2 where
  nodes := by rcases h with rfl | rfl <;> rfl
  versions := by rcases h with rfl | rfl <;> rfl
  chunks id := by
    have hc : u.chunks = w.chunks := by rcases h with rfl | rfl <;> rfl
    refine (lookup_mapValues _ _ _).trans ?_
    rw [hc]
    congr 1
    funext rows
    exact List.filter_congr fun c _ => by by_cases h : c.objectId = o <;> simp [h]
  objects x hx := by
    rcases h with rfl | rfl
    · rfl
    · exact (lookup_erase _ _ _).trans (if_neg (by simpa using hx))
  objects_sub {x stored} hx := by
    rcases h with rfl | rfl
    · exact hx
    · change (w.objects.erase o).lookup x = some stored at hx
      rw [lookup_erase] at hx
      split_ifs at hx
      exact hx
  nextUuid := by rcases h with rfl | rfl <;> rfl
  now := by rcases h with rfl | rfl <;> exact Int.le.intro 1 rfl
  weight_le := Nat.add_le_add (referenced_forget_le h) (stored_forget_le h)

end forget

theorem swept_tick : Swept [] w w.tick := .of_idle rfl rfl rfl rfl rfl rfl (Int.le.intro 1 rfl)

variable (cfg faults w) in
theorem exec_collectObject (report : GcReport) (o : Uuid) :
    ∃ report' u, exec cfg faults (collectObject report o) w = (.ok report', u)
      ∧ (Swept [o] w u ∧ (Named cfg.backend w o → weight u < weight w)
          ∧ (faults w.now o = none → u.objects.lookup o = none)
        ∨ faults w.now o ≠ none ∧ Swept [] w u) := by
  have hmissing : Dropped o w w.tick := .inl rfl
  have hdropped : Dropped o w (w.dropObject o) := .inr rfl
  rw [collectObject, exec_sweepAsk]
  simp only [perform, World.delete]
  cases hfault : faults w.now o with
  | some e =>
    cases e with
    | notFound id => exact ⟨_, _, rfl, .inl ⟨swept_forget hmissing, weight_forget_lt hmissing, by simp⟩⟩
    | alreadyExists id => exact ⟨_, _, rfl, .inr ⟨by simp, swept_tick⟩⟩
    | backend detail => exact ⟨_, _, rfl, .inr ⟨by simp, swept_tick⟩⟩
    | retained id => exact ⟨_, _, rfl, .inr ⟨by simp, swept_tick⟩⟩
  | none =>
    cases hlook : w.objects.lookup o with
    | none => exact ⟨_, _, rfl, .inl ⟨swept_forget hmissing, weight_forget_lt hmissing, fun _ => hlook⟩⟩
    | some stored =>
      refine ⟨_, _, rfl, .inl ⟨swept_forget hdropped, weight_forget_lt hdropped, fun _ => ?_⟩⟩
      exact (lookup_erase _ _ _).trans (if_pos rfl)

variable (cfg faults) in
theorem exec_collectObjects (objects : List Uuid) (report : GcReport) (w : World) :
    ∃ report' u taken, exec cfg faults (collectObjects objects report) w = (.ok report', u)
      ∧ Swept taken w u ∧ taken.Sublist objects ∧ ((∀ t o, faults t o = none) → taken = objects
        ∧ (∀ o ∈ objects, u.objects.lookup o = none)
        ∧ ∀ o, objects.head? = some o → Named cfg.backend w o → weight u < weight w) := by
  induction objects generalizing report w with
  | nil =>
    exact ⟨report, w, [], rfl, .of_idle rfl rfl rfl rfl rfl rfl le_rfl, List.Sublist.refl _,
      fun _ => ⟨rfl, by simp, by simp⟩⟩
  | cons o rest ih =>
    obtain ⟨report', u, hexec, hone⟩ := exec_collectObject cfg faults w report o
    obtain ⟨report'', t, taken, hexec', hrest, hsub, hall⟩ := ih report' u
    rw [collectObjects, exec_bind_ok hexec]
    rcases hone with ⟨hone, hlt, hgone⟩ | ⟨hfault, hone⟩
    · refine ⟨report'', t, o :: taken, hexec', hone.trans hrest, hsub.cons_cons o, fun h => ⟨?_, ?_, ?_⟩⟩
      · rw [(hall h).1]
      · refine List.forall_mem_cons.mpr ⟨?_, (hall h).2.1⟩
        by_contra hne
        obtain ⟨stored, hstored⟩ := Option.ne_none_iff_exists'.mp hne
        cases (hgone (h _ _)).symm.trans (hrest.objects_sub hstored)
      · rintro _ ⟨⟩ hnamed
        exact hrest.weight_le.trans_lt (hlt hnamed)
    · exact ⟨report'', t, taken, hexec', hone.trans hrest, hsub.cons o, fun h => absurd (h _ _) hfault⟩

end Dcfs
