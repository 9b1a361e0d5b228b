import Dcfs.Versions.Writers

namespace Dcfs

open Effects Machine Tables Optimistic World

variable {cfg : Config} {faults : Faults} {n : Uuid} {start : Option Uuid} {s t : Recorded} {slip : Slip}

def Recorded.cell (s : Recorded) (n : Uuid) : Option (Cell Uuid) :=
  (s.world.nodes.lookup n).map fun node => ⟨node.generation, node.currentVersionId, s.history⟩

structure Recorded.Ok (n : Uuid) (start : Option Uuid) (s : Recorded) : Prop where
  numbered : Numbered s.world
  fit : Fit s.world
  cell : ∃ cell, s.cell n = some cell ∧ cell.Ok start

def Drawn (w : World) (current : Option Uuid) : Prop := ∀ v, current = some v → v < w.nextUuid

def Slip.Valid (n : Uuid) : Slip → Recorded → Prop
  | .started, _ => True
  | .observed current, s => Drawn s.world current
  | .read current generation, s => Drawn s.world current ∧ 0 ≤ generation
    ∧ ∃ cell, s.cell n = some cell ∧ generation ≤ cell.generation
  | .holding ticket owner, s => 0 ≤ ticket.read ∧ (∃ cell, s.cell n = some cell ∧ ticket.Valid cell)
    ∧ (∃ version, s.world.versions.lookup ticket.version = some version ∧ version.nodeId = n)
    ∧ ∀ m, owner = some m → m = n

structure Later (n : Uuid) (s t : Recorded) : Prop where
  nextUuid : s.world.nextUuid ≤ t.world.nextUuid
  versions : ∀ v version, s.world.versions.lookup v = some version →
    ∃ now, t.world.versions.lookup v = some now ∧ now.nodeId = version.nodeId
  cell : ∀ old, s.cell n = some old → ∃ new, t.cell n = some new ∧ old.generation ≤ new.generation
    ∧ ∀ ticket : Ticket Uuid, ticket.Valid old → ticket.Valid new

theorem Slip.Valid.later (h : slip.Valid n s) (hlater : Later n s t) : slip.Valid n t := by
  have hdrawn : ∀ {current}, Drawn s.world current → Drawn t.world current :=
    fun hd v hv => (hd v hv).trans_le hlater.nextUuid
  cases slip with
  | started => trivial
  | observed current => exact hdrawn h
  | read current generation =>
    obtain ⟨hcurrent, hzero, old, hold, hle⟩ := h
    obtain ⟨new, hnew, hgeneration, -⟩ := hlater.cell old hold
    exact ⟨hdrawn hcurrent, hzero, new, hnew, hle.trans hgeneration⟩
  | holding ticket owner =>
    obtain ⟨hzero, ⟨old, hold, hvalid⟩, ⟨version, hversion, hnode⟩, howner⟩ := h
    obtain ⟨new, hnew, -, hkeeps⟩ := hlater.cell old hold
    obtain ⟨now, hnow, hsame⟩ := hlater.versions _ version hversion
    exact ⟨hzero, ⟨new, hnew, hkeeps ticket hvalid⟩, ⟨now, hnow, hsame.trans hnode⟩, howner⟩

def Call.Idle : Call → Prop
  | .query _ => True
  | .newUuid => True
  | .put _ _ _ => True
  | .attachChunk _ => True
  | _ => False

theorem Slip.Admits.cases {c : Call} (h : Slip.Admits n c slip) : c.Idle
    ∨ (∃ base size current generation, c = .createStagingVersion n base size ∧ slip = .read current generation)
    ∨ ∃ ticket owner total hash, slip = .holding ticket (some owner) ∧ c = .commitVersion
      ⟨owner, ticket.version, asI64 (addU64 (asU64 ticket.read) 1), ticket.observed⟩ total hash := by
  cases c with
  | query q => exact .inl trivial
  | newUuid => exact .inl trivial
  | put o data file => exact .inl trivial
  | attachChunk row => exact .inl trivial
  | createStagingVersion m base size =>
    cases slip with
    | read current generation =>
      cases h
      exact .inr (.inl ⟨base, size, current, generation, rfl, rfl⟩)
    | _ => exact h.elim
  | commitVersion guard total hash =>
    cases slip with
    | holding ticket owner =>
      cases owner with
      | none => exact h.elim
      | some owner =>
        cases h
        exact .inr (.inr ⟨ticket, owner, total, hash, rfl, rfl⟩)
    | _ => exact h.elim
  | _ => exact h.elim

def Recorded.after (s : Recorded) (cfg : Config) (faults : Faults) (n : Uuid) (c : Call) : Recorded :=
  ((recorder cfg faults n).handle c s).2

variable (cfg faults) in
theorem Call.Idle.frame {c : Call} (h : c.Idle) (w : World) : (perform cfg faults w c).2.nodes = w.nodes
    ∧ (perform cfg faults w c).2.versions = w.versions ∧ w.nextUuid ≤ (perform cfg faults w c).2.nextUuid := by
  cases c with
  | query q => exact ⟨rfl, rfl, le_rfl⟩
  | newUuid => exact ⟨rfl, rfl, Nat.le_succ _⟩
  | put o data file =>
    simp only [perform, World.put]
    split <;> exact ⟨rfl, rfl, le_rfl⟩
  | attachChunk row =>
    simp only [perform, World.attachChunk]
    split <;> split_ifs <;> exact ⟨rfl, rfl, le_rfl⟩
  | _ => exact h.elim

theorem Recorded.after_eq {c : Call} {r : c.Reply} {w : World} (h : perform cfg faults s.world c = (r, w)) :
    s.after cfg faults n c = ⟨w, (eventOf n c r).toList ++ s.history⟩ := by
  simp only [Recorded.after, recorder, h]

theorem Call.Idle.history {c : Call} (h : c.Idle) (s : Recorded) : (s.after cfg faults n c).history = s.history := by
  cases c with
  | query q => rfl
  | newUuid => rfl
  | put o data file => rfl
  | attachChunk row => rfl
  | _ => exact h.elim

theorem Call.Idle.cell {c : Call} (h : c.Idle) (s : Recorded) : (s.after cfg faults n c).cell n = s.cell n := by
  have hnodes : (s.after cfg faults n c).world.nodes = s.world.nodes := (h.frame cfg faults s.world).1
  rw [Recorded.cell, hnodes, h.history, Recorded.cell]

theorem Call.Idle.later {c : Call} (h : c.Idle) (s : Recorded) : Later n s (s.after cfg faults n c) := by
  obtain ⟨-, hversions, hnext⟩ := h.frame cfg faults s.world
  refine ⟨hnext, fun v version hv => ⟨version, ?_, rfl⟩, fun old hold => ⟨old, ?_, le_rfl, fun _ => id⟩⟩
  · exact hversions ▸ hv
  · rw [h.cell, hold]

theorem Recorded.Ok.of_cell {c : Call} (h : s.Ok n start)
    (hcell : ∃ cell, (s.after cfg faults n c).cell n = some cell ∧ cell.Ok start) :
    (s.after cfg faults n c).Ok n start :=
  ⟨perform_numbered h.numbered c, perform_fit h.fit h.numbered c, hcell⟩

theorem Later.refl (n : Uuid) (s : Recorded) : Later n s s :=
  ⟨le_rfl, fun _ version hv => ⟨version, hv, rfl⟩, fun old hold => ⟨old, hold, le_rfl, fun _ => id⟩⟩

theorem Call.Idle.note_valid {c : Call} (h : c.Idle) (hs : s.Ok n start) (hadmits : Slip.Admits n c slip)
    (hvalid : slip.Valid n s) :
    (Slip.note c (perform cfg faults s.world c).1 slip).Valid n (s.after cfg faults n c) := by
  have hlater : slip.Valid n (s.after cfg faults n c) := hvalid.later (h.later s)
  cases c with
  | query q =>
    cases q with
    | getNode m =>
      cases hadmits
      simp only [perform, answer, World.getNode]
      cases hnode : s.world.nodes.lookup n with
      | none => exact hlater
      | some node =>
        have hfit := hs.fit n node hnode
        have hcell : s.cell n = some ⟨node.generation, node.currentVersionId, s.history⟩ := by
          rw [Recorded.cell, hnode, Option.map_some]
        cases slip with
        | started => exact hfit.2
        | observed current => exact ⟨hvalid, hfit.1, _, hcell, le_rfl⟩
        | read current generation => exact hlater
        | holding ticket owner => exact hlater
    | getVersion v =>
      cases slip with
      | holding ticket owner =>
        cases hadmits
        obtain ⟨hzero, hcell, ⟨version, hversion, hnode⟩, -⟩ := hlater
        have hanswer : (perform cfg faults s.world (.query (.getVersion ticket.version))).1 = .ok version := by
          have hv : s.world.versions.lookup ticket.version = some version := hversion
          simp only [perform, answer, World.getVersion, hv]
        rw [hanswer]
        refine ⟨hzero, hcell, ⟨version, hversion, hnode⟩, ?_⟩
        rintro m ⟨⟩
        exact hnode
      | _ => exact hadmits.elim
    | _ => exact hlater
  | newUuid => exact hlater
  | put o data file => exact hlater
  | attachChunk row => exact hlater
  | _ => exact h.elim

section calls

variable {w : World} {b : Backend}

theorem createStagingVersion_cases {node : NodeRecord} (hnode : w.nodes.lookup n = some node)
    (base : Option Uuid) (size : ℤ) : (∃ e, w.createStagingVersion b n base size = (.error e, w))
      ∨ w.createStagingVersion b n base size
        = (.ok (w.newVersion n base size), w.addVersion n node (w.newVersion n base size)) := by
  rw [World.createStagingVersion, hnode]
  dsimp only
  split_ifs
  · exact .inl ⟨_, rfl⟩
  · exact .inr rfl

theorem commitVersion_cases (guard : CommitGuard) (total : ℤ) (hash : String) :
    (∃ e, w.commitVersion b guard total hash = (.error e, w))
      ∨ ∃ node version, w.nodes.lookup guard.nodeId = some node ∧ node.generation = guard.expectedGeneration
        ∧ node.currentVersionId = guard.expectedCurrentVersion
        ∧ w.versions.lookup guard.versionId = some version
        ∧ w.commitVersion b guard total hash = (.ok (w.committed version total hash),
          w.switchTo b guard.nodeId guard.versionId node (w.committed version total hash)) := by
  rw [World.commitVersion]
  cases hnode : w.nodes.lookup guard.nodeId with
  | none => exact .inl ⟨_, rfl⟩
  | some node =>
    dsimp only
    split_ifs with hguard
    · exact .inl ⟨_, rfl⟩
    · cases hversion : w.versions.lookup guard.versionId with
      | none => exact .inl ⟨_, rfl⟩
      | some version =>
        dsimp only
        split_ifs
        · exact .inl ⟨_, rfl⟩
        · rw [not_or, not_not, not_not] at hguard
          exact .inr ⟨node, version, rfl, hguard.1, hguard.2, rfl, rfl⟩

end calls

theorem next_le {g : ℤ} (hg : 0 ≤ g) : asI64 (addU64 (asU64 g) 1) ≤ g + 1 := by
  simp only [asI64, addU64, asU64, Int.bmod]
  split_ifs <;> omega

def Advances (cfg : Config) (faults : Faults) (n : Uuid) (start : Option Uuid) (s : Recorded) (slip : Slip)
    (c : Call) : Prop :=
  (s.after cfg faults n c).Ok n start
    ∧ (Slip.note c (perform cfg faults s.world c).1 slip).Valid n (s.after cfg faults n c)
    ∧ Later n s (s.after cfg faults n c)

theorem advances_idle {c : Call} (h : c.Idle) (hs : s.Ok n start) (hadmits : Slip.Admits n c slip)
    (hvalid : slip.Valid n s) : Advances cfg faults n start s slip c := by
  refine ⟨hs.of_cell ?_, h.note_valid hs hadmits hvalid, h.later s⟩
  rw [h.cell]
  exact hs.cell

theorem advances_refused {c : Call} (hs : s.Ok n start) (hvalid : slip.Valid n s)
    (hafter : s.after cfg faults n c = s) (hnote : Slip.note c (perform cfg faults s.world c).1 slip = slip) :
    Advances cfg faults n start s slip c := by
  rw [Advances, hafter, hnote]
  exact ⟨hs, hvalid, .refl n s⟩

theorem advances_staging {current : Option Uuid} {g : ℤ} (hs : s.Ok n start)
    (hvalid : Slip.Valid n (.read current g) s) (base : Option Uuid) (size : ℤ) :
    Advances cfg faults n start s (.read current g) (.createStagingVersion n base size) := by
  obtain ⟨hdrawn, hzero, cell, hcell, hle⟩ := hvalid
  obtain ⟨node, hnode, rfl⟩ := Option.map_eq_some_iff.mp hcell
  rcases createStagingVersion_cases (b := cfg.backend) hnode base size with ⟨e, hrefused⟩ | hstaged
  · have hperform : perform cfg faults s.world (.createStagingVersion n base size) = (.error e, s.world) := hrefused
    refine advances_refused hs ⟨hdrawn, hzero, _, hcell, hle⟩ (Recorded.after_eq hperform) ?_
    rw [hperform]
    rfl
  · set version := s.world.newVersion n base size with hversion
    have hperform : perform cfg faults s.world (.createStagingVersion n base size)
        = (.ok version, s.world.addVersion n node version) := hstaged
    have hafter : s.after cfg faults n (.createStagingVersion n base size)
        = ⟨s.world.addVersion n node version, .staged s.world.nextUuid :: s.history⟩ := by
      rw [Recorded.after_eq hperform, eventOf, if_pos rfl]
      rfl
    have hlookup : ∀ v, (s.world.addVersion n node version).versions.lookup v
        = if v = s.world.nextUuid then some version else s.world.versions.lookup v :=
      lookup_addVersion n node version
    have hstage : (s.after cfg faults n (.createStagingVersion n base size)).cell n = some (Cell.stage
        ⟨node.generation, node.currentVersionId, s.history⟩ s.world.nextUuid) := by
      rw [hafter, Recorded.cell, World.addVersion, lookup_insert, if_pos rfl]
      rfl
    obtain ⟨_, hsome, hok⟩ := hs.cell
    cases hcell.symm.trans hsome
    refine ⟨hs.of_cell ⟨_, hstage, hok.stage _⟩, ?_, ?_, fun v old hv => ⟨old, ?_, rfl⟩, ?_⟩
    · rw [hperform]
      refine ⟨hzero, ⟨_, hstage, Ticket.valid_stage hle fun heq => ?_⟩, ⟨version, ?_, rfl⟩,
        fun owner howner => by cases howner⟩
      · exact lt_irrefl _ (hdrawn _ heq)
      · rw [hafter]
        exact (hlookup _).trans (if_pos rfl)
    · rw [hafter]
      exact Nat.le_succ _
    · rw [hafter]
      exact (hlookup v).trans ((if_neg (hs.numbered v old hv).ne).trans hv)
    · intro old hold
      cases hcell.symm.trans hold
      exact ⟨_, hstage, Int.le_add_one le_rfl, fun ticket h => h.stage _⟩

theorem advances_commit {ticket : Ticket Uuid} {owner : Uuid} (hs : s.Ok n start)
    (hvalid : Slip.Valid n (.holding ticket (some owner)) s) (total : ℤ) (hash : String) :
    Advances cfg faults n start s (.holding ticket (some owner)) (.commitVersion
      ⟨owner, ticket.version, asI64 (addU64 (asU64 ticket.read) 1), ticket.observed⟩ total hash) := by
  obtain ⟨hzero, ⟨cell, hcell, hticket⟩, hversion, howner⟩ := hvalid
  have hkept : Slip.Valid n (.holding ticket (some owner)) s := ⟨hzero, ⟨cell, hcell, hticket⟩, hversion, howner⟩
  cases howner owner rfl
  obtain ⟨node, hnode, rfl⟩ := Option.map_eq_some_iff.mp hcell
  rcases commitVersion_cases (w := s.world) (b := cfg.backend) ⟨n, ticket.version,
    asI64 (addU64 (asU64 ticket.read) 1), ticket.observed⟩ total hash
    with ⟨e, hrefused⟩ | ⟨found, version, hfound, hgeneration, hcurrent, hlookup, hcommitted⟩
  · exact advances_refused hs hkept (Recorded.after_eq (c := .commitVersion _ total hash) hrefused) rfl
  · cases hnode.symm.trans hfound
    have hadmitted : ticket.Admitted ⟨node.generation, node.currentVersionId, s.history⟩ := by
      have hnext := next_le hzero
      have hlt := hticket.read_lt
      dsimp only at hgeneration hlt
      exact ⟨by dsimp only; omega, hcurrent⟩
    obtain ⟨_, hsome, hok⟩ := hs.cell
    cases hcell.symm.trans hsome
    set new := s.world.switchTo cfg.backend n ticket.version node (s.world.committed version total hash) with hnew
    generalize hc : Call.commitVersion ⟨n, ticket.version, asI64 (addU64 (asU64 ticket.read) 1), ticket.observed⟩
      total hash = c
    have hafter : s.after cfg faults n c
        = ⟨new, .committed ticket.version node.currentVersionId :: s.history⟩ := by
      subst hc
      rw [Recorded.after_eq (c := .commitVersion _ total hash) hcommitted, eventOf, if_pos rfl, hcurrent]
      rfl
    have hcommit : (s.after cfg faults n c).cell n = some (Cell.commit
        ⟨node.generation, node.currentVersionId, s.history⟩ ticket.version) := by
      rw [hafter, Recorded.cell, hnew, World.switchTo, lookup_insert, if_pos rfl]
      rfl
    have hlater : Later n s (s.after cfg faults n c) := by
      refine ⟨?_, fun v old hv => ?_, fun old hold => ?_⟩
      · rw [hafter]
        exact le_rfl
      · rw [hafter]
        dsimp only
        rw [hnew, lookup_switch]
        split_ifs with hsame
        · cases hsame
          cases hlookup.symm.trans hv
          exact ⟨_, rfl, rfl⟩
        · rw [hv]
          refine ⟨_, rfl, ?_⟩
          unfold supersededBy
          split_ifs <;> rfl
        · exact ⟨old, hv, rfl⟩
      · cases hcell.symm.trans hold
        exact ⟨_, hcommit, le_rfl, fun other hother => hother.commit hticket hok hadmitted⟩
    subst hc
    exact ⟨hs.of_cell ⟨_, hcommit, hok.commit hticket hadmitted⟩, hkept.later hlater, hlater⟩

variable (cfg faults) in
theorem advances {c : Call} (hs : s.Ok n start) (hadmits : Slip.Admits n c slip) (hvalid : slip.Valid n s) :
    Advances cfg faults n start s slip c := by
  rcases hadmits.cases with hidle | ⟨base, size, current, g, rfl, rfl⟩ | ⟨ticket, owner, total, hash, rfl, rfl⟩
  · exact advances_idle hidle hs hadmits hvalid
  · exact advances_staging hs hvalid base size
  · exact advances_commit hs hvalid total hash

end Dcfs
