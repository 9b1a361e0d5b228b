import Dcfs.Server.Sample
import Dcfs.Versions.Chain

namespace Dcfs

open Effects Machine Optimistic Request

variable {cfg : Config} {faults : Faults} {n : Uuid} {α : Type} {slip : Slip} {ticket : Ticket Uuid}

abbrev Slip.rules (n : Uuid) : Rules Api Slip := promise Slip.note (Slip.Admits n)

theorem attempts_ask {c : Call} {Q : c.Reply → Slip → Prop} (hc : Slip.Admits n c slip)
    (h : ∀ r, Q r (Slip.note c r slip)) : Attempts (Slip.rules n) (ask c) Q slip := by
  refine Attempts.lift (I := Api) hc ?_
  rintro r _ rfl
  exact h r

theorem attempts_repo {a : Answer α} {Q : α → Slip → Prop} (h : ∀ b, a = .ok b → Q b slip) :
    Attempts (Slip.rules n) (repo a) Q slip := by
  cases a with
  | ok b => exact .ok (h b rfl)
  | error e => exact .error

theorem attempts_store {a : Except ObjectStoreError α} {Q : α → Slip → Prop} (h : ∀ b, a = .ok b → Q b slip) :
    Attempts (Slip.rules n) (store a) Q slip := by
  cases a with
  | ok b => exact .ok (h b rfl)
  | error e => exact .error

def Slip.Holds (ticket : Ticket Uuid) (slip : Slip) : Prop := ∃ owner, slip = .holding ticket owner

theorem Slip.Holds.note (h : slip.Holds ticket) (c : Call) (r : c.Reply) : (Slip.note c r slip).Holds ticket := by
  obtain ⟨owner, rfl⟩ := h
  unfold Slip.note
  split <;> first | exact ⟨_, rfl⟩ | skip
  all_goals rename_i heq
  all_goals cases heq
  exact ⟨_, rfl⟩

theorem stageVersion_attempts (current : Option Uuid) : Attempts (Slip.rules n) (stageVersion cfg n)
    (fun staged slip => ∃ g, slip = .holding ⟨staged.versionId, g, current⟩ none
      ∧ staged.generation = addU64 (asU64 g) 1) (.observed current) := by
  refine .bind (attempts_ask rfl fun found => .bind (attempts_repo fun node hfound => ?_))
  subst hfound
  refine .bind (attempts_ask rfl fun made => .bind (attempts_repo fun version hmade => ?_))
  subst hmade
  exact .ok ⟨node.generation, rfl, rfl⟩

theorem uploadChunk_attempts (hheld : slip.Holds ticket) (req : UploadChunkRequest) (body : Bytes) :
    Attempts (Slip.rules n) (uploadChunk cfg ticket.version req body) (fun _ _ => True) slip := by
  obtain ⟨owner, rfl⟩ := hheld
  refine .bind (attempts_ask rfl fun found => .bind (attempts_repo fun version _ => ?_))
  refine .check fun _ => .check fun _ => .check fun _ => .bind (.bind (attempts_ask trivial fun objectId => ?_))
  refine .bind (attempts_ask trivial fun stored => .bind (attempts_store fun _ _ => .ok ?_))
  exact .check fun _ => .bind (attempts_ask trivial fun _ => .bind (attempts_repo fun _ _ => .ok trivial))

theorem commitVersion_attempts (hheld : slip.Holds ticket) (totalSize : ℕ) (plaintextHash : String) :
    Attempts (Slip.rules n) (commitVersion ticket.version ⟨totalSize, plaintextHash,
      addU64 (asU64 ticket.read) 1, ticket.observed⟩) (fun _ _ => True) slip := by
  obtain ⟨owner, rfl⟩ := hheld
  refine .bind (attempts_ask rfl fun found => .bind (attempts_repo fun version hfound => ?_))
  subst hfound
  refine .bind (attempts_ask trivial fun _ => .bind (attempts_repo fun chunks _ => ?_))
  split
  · exact .error
  · exact .check fun _ => .bind (attempts_ask rfl fun _ => .bind (attempts_repo fun _ _ => .ok trivial))

theorem sending_meets (hheld : slip.Holds ticket) (sending : Sending) :
    (sending.program cfg ticket.version (addU64 (asU64 ticket.read) 1) ticket.observed).Meets (Slip.rules n)
      (fun _ slip => slip.Holds ticket) slip := by
  have hkeeps : ∀ c (before : Slip) r after, (Slip.rules n).admits c before →
      (Slip.rules n).outcome c before r after → before.Holds ticket → after.Holds ticket := by
    rintro c before r _ - rfl hbefore
    exact hbefore.note c r
  cases sending with
  | upload req body =>
    exact .bind ((Program.Meets.keeps (uploadChunk_attempts hheld req body) hkeeps hheld).mono fun _ _ h => h)
  | commit totalSize plaintextHash =>
    exact .bind ((Program.Meets.keeps (commitVersion_attempts hheld totalSize plaintextHash) hkeeps hheld).mono
      fun _ _ h => h)

theorem sendAll_meets (hheld : slip.Holds ticket) (sendings : List Sending) :
    (sendAll cfg ticket.version (addU64 (asU64 ticket.read) 1) ticket.observed sendings).Meets (Slip.rules n)
      (fun _ _ => True) slip := by
  induction sendings generalizing slip with
  | nil => trivial
  | cons sending rest ih => exact .bind ((sending_meets hheld sending).mono fun _ _ hheld => ih hheld)

theorem writer_meets (sendings : List Sending) :
    (writer cfg n sendings).Meets (Slip.rules n) (fun _ _ => True) .started := by
  have hobserve : Attempts (Slip.rules n) (getNode n)
      (fun node slip => slip = .observed node.currentVersionId) .started := by
    refine .bind (attempts_ask rfl fun found => attempts_repo fun node hfound => ?_)
    subst hfound
    rfl
  refine .bind (Program.Meets.mono hobserve fun found slip hfound => ?_)
  cases found with
  | error e => trivial
  | ok node =>
    rw [hfound node rfl]
    refine .bind (Program.Meets.mono (stageVersion_attempts _) fun made slip hmade => ?_)
    cases made with
    | error e => trivial
    | ok staged =>
      obtain ⟨g, rfl, hgeneration⟩ := hmade staged rfl
      dsimp only
      rw [hgeneration]
      have hheld : Slip.Holds ⟨staged.versionId, g, node.currentVersionId⟩
          (.holding ⟨staged.versionId, g, node.currentVersionId⟩ none) := ⟨none, rfl⟩
      exact sendAll_meets hheld sendings

variable {start : World} {node : NodeRecord} {p : Writers}

theorem Writing.holds (hstart : CallRun cfg start) (hnode : start.nodes.lookup n = some node)
    (h : Writing cfg n start p) :
    p.Holds Slip.note (Slip.Admits n) (Recorded.Ok n node.currentVersionId) (Slip.Valid n) := by
  induction h with
  | start =>
    obtain ⟨hnumbered, hfit⟩ := hstart.fit
    have hcell : Recorded.cell ⟨start, []⟩ n = some ⟨node.generation, node.currentVersionId, []⟩ := by
      rw [Recorded.cell, hnode, Option.map_some]
    exact ⟨⟨hnumbered, hfit, _, hcell, rfl, trivial⟩, fun _ hmem => absurd hmem List.not_mem_nil,
      fun _ hmem => absurd hmem List.not_mem_nil⟩
  | client sendings _ ih => exact ih.spawn trivial (writer_meets sendings)
  | @again p thread ticket owner sendings _ hthread hnotes ih =>
    have hvalid := ih.notes thread hthread
    rw [hnotes] at hvalid
    exact ih.spawn ⟨hvalid.1, hvalid.2.1, hvalid.2.2.1, fun owner howner => by cases howner⟩
      (sendAll_meets ⟨none, rfl⟩ sendings)
  | step faults i _ hq ih =>
    refine Pool.Holds.advance (S := recorder cfg faults n) ih hq fun thread _ hadmits hvalid _ => ?_
    obtain ⟨hok, hnoted, hlater⟩ := advances cfg faults ih.state hadmits hvalid
    exact ⟨hok, hnoted, fun other _ hother => hother.later hlater⟩

/--
Each committed version expected the one committed before it, and right before its commit it was
staged itself: nothing else was staged or committed in between.
-/
theorem writers_never_overwrite (hstart : CallRun cfg start) (hnode : start.nodes.lookup n = some node)
    (h : Writing cfg n start p) :
    (∀ later v expected earlier, p.state.history = later ++ .committed v expected :: earlier →
      expected = last node.currentVersionId earlier ∧ earlier.head? = some (.staged v))
      ∧ ∃ now, p.state.world.nodes.lookup n = some now
        ∧ now.currentVersionId = last node.currentVersionId p.state.history := by
  obtain ⟨cell, hcell, hok⟩ := (h.holds hstart hnode).state.cell
  obtain ⟨now, hnow, rfl⟩ := Option.map_eq_some_iff.mp hcell
  refine ⟨fun later v expected earlier heq => ?_, now, hnow, hok.current⟩
  have hchain := hok.chain
  dsimp only at hchain
  rw [heq] at hchain
  exact hchain.committed

def unwritten : World := (perform (sample .memory) noFaults (World.fresh 0) (.createNode 5 0 [97] .file 0 0 0)).2

def oneAfterTheOther : Writers :=
  (Pool.spawn ⟨⟨unwritten, []⟩, []⟩ (writer (sample .memory) 5 [.commit 0 ""]) .started).spawn
    (writer (sample .memory) 5 [.commit 0 "", .commit 0 ""]) .started

theorem one_after_the_other : ∃ p, CallRun (sample .memory) unwritten ∧ Writing (sample .memory) 5 unwritten p
    ∧ p.state.history = [.committed 2 (some 1), .staged 2, .committed 1 none, .staged 1]
    ∧ (∀ later v expected earlier, p.state.history = later ++ .committed v expected :: earlier →
      expected = last none earlier ∧ earlier.head? = some (.staged v))
    ∧ ∃ now, p.state.world.nodes.lookup 5 = some now ∧ now.currentVersionId = last none p.state.history := by
  have hhistory : (oneAfterTheOther.schedule (recorder (sample .memory) noFaults 5) (fun _ _ => true)
      [0, 0, 0, 0, 0, 0, 0, 0, 0, 0, 0, 0, 0, 0, 0]).map (fun p => p.state.history)
      = some [.committed 2 (some 1), .staged 2, .committed 1 none, .staged 1] := by decide
  obtain ⟨p, hp, heq⟩ := Option.map_eq_some_iff.mp hhistory
  have hstart : CallRun (sample .memory) unwritten := .step noFaults _ (.fresh 0) trivial
  have hrun : Writing (sample .memory) 5 unwritten p := Pool.schedule_induction
    (fun _ _ i hp _ hq => hp.step noFaults i hq) (.client _ (.client _ .start)) hp
  exact ⟨p, hstart, hrun, heq, writers_never_overwrite hstart rfl hrun⟩

end Dcfs
