import Dcfs.Fuse.Accounts

namespace Dcfs.Fuse

open Tables

namespace Interleaved

def Phase.settles (key : Key) (length : ℕ) : Phase → Prop
  | .recording key' data _ => key' = key ∧ data.length = length
  | .unlinking victims _ => key ∈ victims
  | _ => False

instance (key : Key) (length : ℕ) : DecidablePred (Phase.settles key length) := fun phase => by
  unfold Phase.settles
  split <;> infer_instance

def Settles (reads : List Phase) (key : Key) (length : ℕ) : Prop := ∃ phase ∈ reads, phase.settles key length

instance (reads : List Phase) (key : Key) (length : ℕ) : Decidable (Settles reads key length) :=
  inferInstanceAs (Decidable (∃ phase ∈ reads, phase.settles key length))

/--
A block whose file was not found is taken out of the accounts only if it has no file now, and a block is recorded
only with the length its file has now; or else another read is about to see to it.
-/
def Careful (s : State) : Act → Prop
  | .advance i => match s.reads[i]? with
    | some (.dropping key _ _) => ∀ data, s.cache.files.lookup key = some data → Settles s.reads key data.length
    | some (.recording key data _) => ∀ data', s.cache.files.lookup key = some data' → data'.length = data.length
      ∨ ∃ j phase, j ≠ i ∧ s.reads[j]? = some phase ∧ phase.settles key data'.length
    | _ => True
  | _ => True

instance (s : State) (i : ℕ) (key : Key) (length : ℕ) :
    Decidable (∃ j phase, j ≠ i ∧ s.reads[j]? = some phase ∧ phase.settles key length) :=
  decidable_of_iff (∃ j < s.reads.length, j ≠ i ∧ ∃ phase ∈ s.reads[j]?, phase.settles key length) <| by
    constructor
    · rintro ⟨j, -, hne, phase, hphase, hsettles⟩
      exact ⟨j, phase, hne, hphase, hsettles⟩
    · rintro ⟨j, phase, hne, hphase, hsettles⟩
      exact ⟨j, (List.getElem?_eq_some_iff.mp hphase).1, hne, phase, hphase, hsettles⟩

instance (s : State) : DecidablePred (Careful s)
  | .advance i => by
    unfold Careful
    dsimp only
    split
    · exact inferInstanceAs (Decidable (∀ data ∈ s.cache.files.lookup _, Settles s.reads _ data.length))
    · exact inferInstanceAs (Decidable (∀ data ∈ s.cache.files.lookup _, data.length = _
        ∨ ∃ j phase, j ≠ i ∧ s.reads[j]? = some phase ∧ phase.settles _ data.length))
    · infer_instance
  | .start _ _ _ _ | .fetched _ _ | .giveUp _ => .isTrue trivial

def Accounted (cache : BlockCache) (reads : List Phase) : Prop :=
  ∀ key data, cache.files.lookup key = some data →
    (∃ tick, cache.blocks.lookup key = some (data.length, tick)) ∨ Settles reads key data.length

variable {cache cache' : BlockCache} {reads : List Phase} {i : ℕ} {phase phase' : Phase} {key : Key} {length : ℕ}

theorem Settles.set (h : Settles reads key length) (hi : reads[i]? = some phase)
    (hnext : phase.settles key length → phase'.settles key length) : Settles (reads.set i phase') key length := by
  obtain ⟨p, hp, hsettles⟩ := h
  obtain ⟨j, hj⟩ := List.mem_iff_getElem?.mp hp
  by_cases hij : i = j
  · subst hij
    rw [hi] at hj
    cases hj
    exact ⟨phase', List.mem_of_getElem? (List.getElem?_set_self (List.getElem?_eq_some_iff.mp hi).1), hnext hsettles⟩
  · refine ⟨p, List.mem_of_getElem? (i := j) ?_, hsettles⟩
    rw [List.getElem?_set_ne hij]
    exact hj

theorem Accounted.same (h : Accounted cache reads) (hi : reads[i]? = some phase)
    (hnext : ∀ key length, phase.settles key length → phase'.settles key length)
    (hfiles : cache'.files = cache.files)
    (hblocks : ∀ key size tick, cache.blocks.lookup key = some (size, tick) →
      ∃ tick', cache'.blocks.lookup key = some (size, tick')) : Accounted cache' (reads.set i phase') := by
  intro key data hfile
  rw [hfiles] at hfile
  rcases h key data hfile with ⟨tick, hindex⟩ | hsettles
  · exact .inl (hblocks key _ tick hindex)
  · exact .inr (hsettles.set hi (hnext key _))

theorem Accounted.advance {budget : ℕ} (h : Accounted cache reads) (hwithin : BlockCache.Within budget cache)
    (hi : reads[i]? = some phase) (hcareful : Careful ⟨cache, reads⟩ (.advance i))
    (hstep : advance cache phase = some (cache', phase')) :
    Accounted cache' (reads.set i phase') ∧ BlockCache.Within budget cache' := by
  have hkept : ∀ key size tick, cache.blocks.lookup key = some (size, tick) →
      ∃ tick', cache.blocks.lookup key = some (size, tick') := fun _ _ tick hindex => ⟨tick, hindex⟩
  rw [Careful, hi] at hcareful
  cases phase with
  | loading keys misses =>
    cases keys with
    | nil => cases hstep
    | cons key keys =>
      simp only [Interleaved.advance] at hstep
      split at hstep
      · rename_i size tick hkey
        cases hstep
        refine ⟨h.same hi (fun _ _ => False.elim) rfl fun key' size' tick' hindex => ?_, hwithin.mode,
          hwithin.exact.used hkey, hwithin.bytes⟩
        rw [BlockCache.used, lookup_insert]
        split_ifs with heq
        · rw [heq, hkey] at hindex
          cases hindex
          exact ⟨_, rfl⟩
        · exact ⟨tick', hindex⟩
      · cases hstep
        exact ⟨h.same hi (fun _ _ => False.elim) rfl hkept, hwithin⟩
  | reading key keys misses =>
    simp only [Interleaved.advance] at hstep
    split at hstep
    · cases hstep
      exact ⟨h.same hi (fun _ _ => False.elim) rfl hkept, hwithin⟩
    · cases hstep
      exact ⟨h.same hi (fun _ _ => False.elim) rfl hkept, hwithin⟩
  | dropping key keys misses =>
    cases hstep
    refine ⟨fun key' data hfile => ?_, BlockCache.forget_mode.trans hwithin.mode, hwithin.exact.forget key, ?_⟩
    · rw [BlockCache.forget_files] at hfile
      by_cases heq : key' = key
      · subst heq
        exact .inr ((hcareful data hfile).set hi False.elim)
      · rcases h key' data hfile with ⟨tick, hindex⟩ | hsettles
        · left
          refine ⟨tick, ?_⟩
          rw [BlockCache.lookup_forget, if_neg heq]
          exact hindex
        · exact .inr (hsettles.set hi False.elim)
    · have hbytes := hwithin.bytes
      unfold BlockCache.forget
      split
      · dsimp only
        omega
      · exact hbytes
  | storing fetched =>
    cases fetched with
    | nil =>
      cases hstep
      exact ⟨h.same hi (fun _ _ => False.elim) rfl hkept, hwithin⟩
    | cons block fetched =>
      simp only [Interleaved.advance] at hstep
      split_ifs at hstep
      · cases hstep
        exact ⟨h.same hi (fun _ _ => False.elim) rfl hkept, hwithin⟩
      · cases hstep
        exact ⟨h.same hi (fun _ _ => False.elim) rfl hkept, hwithin⟩
  | written key data fetched =>
    cases hstep
    refine ⟨fun key' data' hfile => ?_, hwithin.mode, hwithin.exact, hwithin.bytes⟩
    rw [BlockCache.wroteFile, lookup_insert] at hfile
    split_ifs at hfile with heq
    · cases hfile
      right
      exact ⟨.recording key data fetched,
        List.mem_of_getElem? (List.getElem?_set_self (List.getElem?_eq_some_iff.mp hi).1), heq.symm, rfl⟩
    · rcases h key' data' hfile with hindex | hsettles
      · exact .inl hindex
      · exact .inr (hsettles.set hi False.elim)
  | recording key data fetched =>
    cases hstep
    refine ⟨fun key' data' hfile => ?_, hwithin.recordAndPick key data⟩
    rw [BlockCache.recordAndPick_files] at hfile
    rcases BlockCache.recordAndPick_lookup hwithin key data key' with hlookup | hvictim
    · by_cases heq : key' = key
      · subst heq
        rw [if_pos rfl] at hlookup
        rcases hcareful data' hfile with hlength | ⟨j, other, hij, hj, hsettles⟩
        · left
          rw [hlength]
          exact ⟨_, hlookup⟩
        · right
          refine ⟨other, List.mem_of_getElem? (i := j) ?_, hsettles⟩
          rw [List.getElem?_set_ne (Ne.symm hij)]
          exact hj
      · rw [if_neg heq] at hlookup
        rw [hlookup]
        rcases h key' data' hfile with hindex | hsettles
        · exact .inl hindex
        · right
          apply hsettles.set hi
          rintro ⟨hkey, -⟩
          exact absurd hkey.symm heq
    · right
      exact ⟨_, List.mem_of_getElem? (List.getElem?_set_self (List.getElem?_eq_some_iff.mp hi).1), hvictim⟩
  | unlinking victims fetched =>
    cases victims with
    | nil =>
      cases hstep
      exact ⟨h.same hi (fun _ _ hmem => absurd hmem List.not_mem_nil) rfl hkept, hwithin⟩
    | cons victim victims =>
      cases hstep
      refine ⟨fun key' data' hfile => ?_, hwithin.mode, hwithin.exact, hwithin.bytes⟩
      rw [BlockCache.removedFile, lookup_erase] at hfile
      split_ifs at hfile with heq
      rcases h key' data' hfile with hindex | hsettles
      · exact .inl hindex
      · right
        apply hsettles.set hi
        intro hmem
        exact (List.mem_cons.mp hmem).resolve_left heq
  | finished => cases hstep

theorem giveUp_settles (h : giveUp phase = some phase') : ¬phase.settles key length := by
  intro hsettles
  cases phase with
  | recording _ _ _ | unlinking _ _ => cases h
  | _ => exact hsettles

theorem Accounted.step {budget : ℕ} {s s' : State} {act : Act} (h : Accounted s.cache s.reads)
    (hwithin : BlockCache.Within budget s.cache) (hcareful : Careful s act) (hstep : step s act = some s') :
    Accounted s'.cache s'.reads ∧ BlockCache.Within budget s'.cache := by
  cases act with
  | start nodeId versionId offset size =>
    cases hstep
    refine ⟨fun key data hfile => ?_, hwithin⟩
    rcases h key data hfile with hindex | ⟨phase, hphase, hsettles⟩
    · exact .inl hindex
    · exact .inr ⟨phase, List.mem_append_left _ hphase, hsettles⟩
  | advance i =>
    obtain ⟨⟨cache', phase'⟩, hnext, rfl⟩ := Option.map_eq_some_iff.mp hstep
    obtain ⟨phase, hi, hadvance⟩ := Option.bind_eq_some_iff.mp hnext
    exact h.advance hwithin hi hcareful hadvance
  | fetched i blocks =>
    simp only [Interleaved.step] at hstep
    split at hstep
    · rename_i misses hi
      split_ifs at hstep
      cases hstep
      exact ⟨h.same hi (fun _ _ => False.elim) rfl fun _ _ tick hindex => ⟨tick, hindex⟩, hwithin⟩
    · cases hstep
  | giveUp i =>
    obtain ⟨phase', hnext, rfl⟩ := Option.map_eq_some_iff.mp hstep
    obtain ⟨phase, hi, hgiveUp⟩ := Option.bind_eq_some_iff.mp hnext
    refine ⟨h.same hi (fun _ _ hsettles => ?_) rfl fun _ _ tick hindex => ⟨tick, hindex⟩, hwithin⟩
    exact absurd hsettles (giveUp_settles hgiveUp)

theorem Reaches.accounted {budget : ℕ} {s : State} (h : Reaches Careful (.opened (.stream budget)) s) :
    Accounted s.cache s.reads ∧ BlockCache.Within budget s.cache := by
  refine h.keeps (P := fun s => Accounted s.cache s.reads ∧ BlockCache.Within budget s.cache) ?_ ?_
  · exact ⟨nofun, rfl, rfl, Nat.zero_le _⟩
  · exact fun _ _ _ hs hcareful hact => hs.1.step hs.2 hcareful hact

theorem files_within_budget (budget : ℕ) (s : State) (h : Reaches Careful (.opened (.stream budget)) s)
    (hidle : s.Idle) :
    (∀ key data, s.cache.files.lookup key = some data → ∃ tick, s.cache.blocks.lookup key = some (data.length, tick))
    ∧ total List.length s.cache.files ≤ budget := by
  obtain ⟨haccounted, hwithin⟩ := h.accounted
  have hindexed : ∀ key data, s.cache.files.lookup key = some data →
      ∃ tick, s.cache.blocks.lookup key = some (data.length, tick) := by
    intro key data hfile
    rcases haccounted key data hfile with hindex | ⟨phase, hphase, hsettles⟩
    · exact hindex
    · rw [hidle phase hphase] at hsettles
      exact hsettles.elim
  refine ⟨hindexed, ?_⟩
  calc total List.length s.cache.files
      ≤ total Prod.fst s.cache.blocks := total_le_total fun key data hfile => by
        obtain ⟨tick, hindex⟩ := hindexed key data hfile
        exact ⟨_, hindex, le_rfl⟩
    _ = s.cache.bytes := hwithin.exact.symm
    _ ≤ budget := hwithin.bytes

section sample

def first : Key := ⟨1, 1, 0⟩

def second : Key := ⟨2, 2, 0⟩

def sideBySide : List Act :=
  [.start 1 1 0 1, .start 2 2 0 1, .advance 0, .advance 1, .fetched 0 [(first, [7])], .fetched 1 [(second, [8])],
    .advance 0, .advance 1, .advance 0, .advance 1, .advance 0, .advance 1, .advance 0, .advance 1, .advance 1,
    .advance 0, .advance 1]

theorem kept_within_budget : ∃ s, Reaches Careful (.opened (.stream 1)) s ∧ s.Idle
    ∧ s.cache.files.lookup first = none ∧ s.cache.files.lookup second = some [8]
    ∧ (∀ key data, s.cache.files.lookup key = some data → ∃ tick, s.cache.blocks.lookup key = some (data.length, tick))
    ∧ total List.length s.cache.files ≤ 1 := by
  obtain ⟨s, hs, hreads, hgone, hkept⟩ : ∃ s ∈ Steps.play step Careful sideBySide (.opened (.stream 1)),
      s.reads = [.finished, .finished] ∧ s.cache.files.lookup first = none
        ∧ s.cache.files.lookup second = some [8] := by
    decide +kernel
  have hreached : Reaches Careful (.opened (.stream 1)) s := Steps.reaches_of_play _ hs
  have hidle : s.Idle := by
    intro phase hphase
    simpa [hreads] using hphase
  exact ⟨s, hreached, hidle, hgone, hkept, files_within_budget 1 s hreached hidle⟩

def overfull : State :=
  ⟨⟨.stream 1, AList.insert second (1, 4) ∅, 5, 1, AList.insert second [7] (AList.insert first [7] ∅)⟩,
    [.finished, .finished, .finished, .finished, .finished]⟩

def fetching (i : ℕ) (key : Key) (victims : ℕ) : List Act :=
  [.start key.nodeId key.versionId 0 1, .advance i, .fetched i [(key, [7])]] ++ List.replicate (5 + victims)
    (.advance i)

def droppingLate : List Act :=
  fetching 0 first 0 ++ [.start 1 1 0 1, .advance 1] ++ fetching 2 second 1 ++ [.advance 1] ++ fetching 3 first 1
    ++ [.advance 1, .fetched 1 [], .advance 1] ++ fetching 4 second 0

theorem overfull_reached : Reaches (fun _ _ => True) (.opened (.stream 1)) overfull :=
  Steps.reaches_of_play droppingLate rfl

theorem dropped_over_budget : Reaches (fun _ _ => True) (.opened (.stream 1)) overfull ∧ overfull.Idle
    ∧ overfull.cache.files.lookup first = some [7] ∧ overfull.cache.blocks.lookup first = none
    ∧ total List.length overfull.cache.files = 2 := by
  -- A read takes a block out of the accounts because its file had gone, after another has stored it again, and then
  -- cannot fetch it: no read is in progress, the file is not in the index, and the files are over the budget.
  refine ⟨overfull_reached, ?_, rfl, rfl, rfl⟩
  intro phase hphase
  simpa [overfull] using hphase

end sample

end Interleaved

end Dcfs.Fuse
