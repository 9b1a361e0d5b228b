import Dcfs.Library.RwLocks
import Mathlib.Tactic.SplitIfs

/-! The locks of the memory repository, and the order in which its methods take them. -/

namespace Dcfs.MemoryRepository

open RwLocks

inductive Lock
  | nodes | versions | chunks | locators | sessions
  deriving DecidableEq

inductive Method
  | getNode | getRoot | listChildren | findChild | createNode | createSymlink | deleteNode | renameNode | publishNode
  | updateNodeAttr | createStagingVersion | lockNode | tryLockGc | findOpenStagingVersion | touchStagingVersion
  | reconcileNodeSizes | attachChunk | getChunks | getChunkRange | copyChunkRange | commitVersion | getVersion
  | putObjectLocator | getObjectLocator | touchObjectUrl | deleteObjectLocator | createSession | findSession
  | revokeSession | purgeExpiredSessions | collectableObjects | forgetObject | purgeEmptyDeadVersions
  | purgeDeletedNodes
  deriving DecidableEq

def reads (lock : Lock) : List (Act Lock) := [.acquire lock .read, .release lock]

def writes (lock : Lock) : List (Act Lock) := [.acquire lock .write, .release lock]

/-- The guards go in the reverse order of their declarations, and a method may return before it has taken them all. -/
def Method.courses : Method → List (List (Act Lock))
  | .getNode | .getRoot | .listChildren | .findChild => [reads .nodes]
  | .createNode | .createSymlink | .deleteNode | .renameNode | .publishNode | .updateNodeAttr => [writes .nodes]
  -- The second and the third guard are temporaries of their statements.
  | .createStagingVersion =>
    [writes .nodes, .acquire .nodes .write :: (writes .versions ++ writes .chunks) ++ [.release .nodes]]
  | .lockNode | .tryLockGc | .purgeDeletedNodes => [[]]
  | .findOpenStagingVersion | .getVersion => [reads .versions]
  | .touchStagingVersion => [writes .versions]
  | .reconcileNodeSizes =>
    [[.acquire .versions .read, .acquire .nodes .write, .release .nodes, .release .versions]]
  | .attachChunk | .forgetObject => [writes .chunks]
  | .getChunks | .getChunkRange => [reads .chunks]
  | .copyChunkRange => [[], writes .chunks]
  | .commitVersion => [writes .nodes, .acquire .nodes .write :: writes .versions ++ [.release .nodes]]
  | .putObjectLocator | .touchObjectUrl | .deleteObjectLocator => [writes .locators]
  | .getObjectLocator => [reads .locators]
  | .createSession | .revokeSession | .purgeExpiredSessions => [writes .sessions]
  | .findSession => [reads .sessions]
  | .collectableObjects =>
    [[.acquire .nodes .read, .acquire .versions .read, .acquire .chunks .read, .release .chunks, .release .versions,
      .release .nodes]]
  | .purgeEmptyDeadVersions =>
    [[.acquire .nodes .read, .acquire .versions .write, .acquire .chunks .write, .release .chunks, .release .versions,
      .release .nodes]]

def Method.nodesFirst : Method → Bool
  | .createStagingVersion | .commitVersion | .collectableObjects | .purgeEmptyDeadVersions => true
  | _ => false

abbrev Calls := List (Call Lock Method)

def Absent (calls : Calls) (named : Method → Bool) : Prop :=
  ∀ call ∈ calls, call.rest ≠ [] → named call.name = false

/-- `reconcile_node_sizes` is not started beside a method that takes the two locks the other way, nor one beside it. -/
def Apart (calls : Calls) (method : Method) : Prop :=
  (method = .reconcileNodeSizes → Absent calls Method.nodesFirst)
    ∧ (method.nodesFirst = true → Absent calls (· == .reconcileNodeSizes))

def Reaches (may : Calls → Method → Prop) (calls : Calls) : Prop :=
  Relation.ReflTransGen (Step Method.courses may) [] calls

def nodesRank : Lock → ℕ
  | .nodes => 0
  | .versions => 1
  | .chunks => 2
  | .locators => 3
  | .sessions => 4

def versionsRank : Lock → ℕ
  | .versions => 0
  | .nodes => 1
  | .chunks => 2
  | .locators => 3
  | .sessions => 4

theorem nodesRank_climbs {method : Method} (h : method ≠ .reconcileNodeSizes) {course : List (Act Lock)}
    (hcourse : course ∈ method.courses) : climbs nodesRank [] course = true := by
  have hall : method.courses.all (climbs nodesRank []) = true := by
    cases method with
    | reconcileNodeSizes => exact absurd rfl h
    | _ => rfl
  exact List.all_eq_true.mp hall course hcourse

theorem versionsRank_climbs {method : Method} (h : method.nodesFirst = false) {course : List (Act Lock)}
    (hcourse : course ∈ method.courses) : climbs versionsRank [] course = true := by
  have hall : method.courses.all (climbs versionsRank []) = true := by
    cases method with
    | createStagingVersion | commitVersion | collectableObjects | purgeEmptyDeadVersions => cases h
    | _ => rfl
  exact List.all_eq_true.mp hall course hcourse

variable {calls calls' : Calls}

def Climbing (call : Call Lock Method) : Prop :=
  (call.name ≠ .reconcileNodeSizes → climbs nodesRank call.held call.rest = true)
    ∧ (call.name.nodesFirst = false → climbs versionsRank call.held call.rest = true)

theorem climbing_step {may : Calls → Method → Prop} (hstep : Step Method.courses may calls calls')
    (h : ∀ call ∈ calls, Climbing call) : ∀ call ∈ calls', Climbing call := by
  apply hstep.forall _ _ _ h
  · intro name course _ hcourse
    exact ⟨fun hname => nodesRank_climbs hname hcourse, fun hname => versionsRank_climbs hname hcourse⟩
  · intro call lock mode rest hrest hcall
    exact ⟨fun hname => climbs_took hrest (hcall.1 hname), fun hname => climbs_took hrest (hcall.2 hname)⟩
  · intro call lock rest hrest hcall
    exact ⟨fun hname => climbs_gaveBack hrest (hcall.1 hname), fun hname => climbs_gaveBack hrest (hcall.2 hname)⟩

theorem absent_step {may : Calls → Method → Prop} (hstep : Step Method.courses may calls calls') {named : Method → Bool}
    (h : Absent calls named) (hstart : ∀ method, may calls method → named method = false) : Absent calls' named := by
  apply hstep.forall _ _ _ h
  · exact fun name course hmay _ _ => hstart name hmay
  · intro call lock mode rest hrest hcall _
    apply hcall
    rw [hrest]
    exact List.cons_ne_nil _ _
  · intro call lock rest hrest hcall _
    apply hcall
    rw [hrest]
    exact List.cons_ne_nil _ _

def OneWay (calls : Calls) : Prop := Absent calls Method.nodesFirst ∨ Absent calls (· == .reconcileNodeSizes)

theorem OneWay.old {may : Calls → Method → Prop} (hstep : Step Method.courses may calls calls') (h : OneWay calls)
    (hstart : ∀ method, may calls method → method ≠ .reconcileNodeSizes ∧ method.nodesFirst = false) :
    OneWay calls' := by
  rcases h with h | h
  · exact .inl (absent_step hstep h fun method hmay => (hstart method hmay).2)
  · exact .inr (absent_step hstep h fun method hmay => beq_false_of_ne (hstart method hmay).1)

theorem oneWay_step (hstep : Step Method.courses Apart calls calls') (h : OneWay calls) : OneWay calls' := by
  cases hstep with
  | @start name course hapart hcourse =>
    have hnew : Step Method.courses (fun _ method => method = name) calls (calls ++ [⟨name, [], course⟩]) :=
      .start rfl hcourse
    by_cases hreconcile : name = .reconcileNodeSizes
    · left
      apply absent_step hnew (hapart.1 hreconcile)
      rintro _ rfl
      rw [hreconcile]
      rfl
    · by_cases hfirst : name.nodesFirst = true
      · right
        apply absent_step hnew (hapart.2 hfirst)
        rintro _ rfl
        exact beq_false_of_ne hreconcile
      · apply h.old hnew
        rintro _ rfl
        exact ⟨hreconcile, Bool.eq_false_iff.mpr hfirst⟩
  | acquire hi hrest hfree =>
    have hold : Step Method.courses (fun _ _ => False) calls _ := .acquire hi hrest hfree
    exact h.old hold nofun
  | release hi hrest =>
    have hold : Step Method.courses (fun _ _ => False) calls _ := .release hi hrest
    exact h.old hold nofun

theorem Reaches.climbing {may : Calls → Method → Prop} (h : Reaches may calls) : ∀ call ∈ calls, Climbing call := by
  induction h with
  | refl => exact nofun
  | tail _ hstep ih => exact climbing_step hstep ih

theorem Reaches.oneWay (h : Reaches Apart calls) : OneWay calls := by
  induction h with
  | refl => exact .inl nofun
  | tail _ hstep ih => exact oneWay_step hstep ih

theorem no_deadlock_of_apart (calls : Calls) (h : Reaches Apart calls) : ¬Deadlocked calls := by
  rcases h.oneWay with hfirst | hreconcile
  · apply not_deadlocked_of_climbs versionsRank
    intro call hcall hrest
    exact (h.climbing call hcall).2 (hfirst call hcall hrest)
  · apply not_deadlocked_of_climbs nodesRank
    intro call hcall hrest
    exact (h.climbing call hcall).1 (ne_of_beq_false (hreconcile call hcall hrest))

section sample

def commitCall : Call Lock Method :=
  ⟨.commitVersion, [], .acquire .nodes .write :: writes .versions ++ [.release .nodes]⟩

def collectCall : Call Lock Method := ⟨.collectableObjects, [], .acquire .nodes .read :: .acquire .versions .read
  :: .acquire .chunks .read :: [.release .chunks, .release .versions, .release .nodes]⟩

def collecting : Calls := [collectCall.took .nodes .read collectCall.rest.tail, commitCall]

theorem collecting_reached : Reaches Apart collecting := by
  have hcollect : Step Method.courses Apart [] [collectCall] := .start ⟨nofun, fun _ => nofun⟩ List.mem_cons_self
  have hcommit : Step Method.courses Apart [collectCall] [collectCall, commitCall] := by
    apply @Step.start _ _ _ _ _ [collectCall] .commitVersion commitCall.rest
    · refine ⟨nofun, fun _ call hcall _ => ?_⟩
      rw [List.mem_singleton.mp hcall]
      rfl
    · exact List.mem_cons_of_mem _ List.mem_cons_self
  have htake : Step Method.courses Apart [collectCall, commitCall] collecting :=
    @Step.acquire _ _ _ _ _ [collectCall, commitCall] 0 collectCall .nodes .read _ rfl rfl (by decide)
  exact .head hcollect (.head hcommit (.single htake))

theorem collecting_not_deadlocked : Reaches Apart collecting ∧ Waits collecting 1 0 ∧ ¬Deadlocked collecting :=
  ⟨collecting_reached, ⟨_, _, .nodes, .write, .read, rfl, rfl, rfl, by decide, .inl rfl⟩,
    no_deadlock_of_apart collecting collecting_reached⟩

def reconcileCall : Call Lock Method :=
  ⟨.reconcileNodeSizes, [], [.acquire .versions .read, .acquire .nodes .write, .release .nodes, .release .versions]⟩

def purgeCall : Call Lock Method := ⟨.purgeEmptyDeadVersions, [], .acquire .nodes .read :: .acquire .versions .write
  :: .acquire .chunks .write :: [.release .chunks, .release .versions, .release .nodes]⟩

def crossed : Calls :=
  [reconcileCall.took .versions .read reconcileCall.rest.tail, purgeCall.took .nodes .read purgeCall.rest.tail]

theorem crossed_reached : Reaches (fun _ _ => True) crossed := by
  have hreconcile : Step Method.courses (fun _ _ => True) [] [reconcileCall] := .start trivial List.mem_cons_self
  have hpurge : Step Method.courses (fun _ _ => True) [reconcileCall] [reconcileCall, purgeCall] :=
    @Step.start _ _ _ _ _ [reconcileCall] .purgeEmptyDeadVersions _ trivial List.mem_cons_self
  have hversions := @Step.acquire _ _ _ Method.courses (fun _ _ => True) [reconcileCall, purgeCall] 0 reconcileCall
    .versions .read _ rfl rfl (by decide)
  have hnodes := @Step.acquire _ _ _ Method.courses (fun _ _ => True)
    [reconcileCall.took .versions .read reconcileCall.rest.tail, purgeCall] 1 purgeCall .nodes .read _ rfl rfl
      (by decide)
  exact .head hreconcile (.head hpurge (.head hversions (.single hnodes)))

theorem crossed_stuck (calls : Calls) : ¬Step Method.courses (fun _ _ => False) crossed calls := by
  intro hstep
  cases hstep with
  | start hmay _ => exact hmay
  | @acquire i call lock mode rest hi hrest hfree =>
    match i with
    | 0 =>
      cases hi
      cases hrest
      exact absurd hfree (by decide)
    | 1 =>
      cases hi
      cases hrest
      exact absurd hfree (by decide)
    | _ + 2 => cases hi
  | @release i call lock rest hi hrest =>
    match i with
    | 0 =>
      cases hi
      cases hrest
    | 1 =>
      cases hi
      cases hrest
    | _ + 2 => cases hi

theorem crossed_deadlocked :
    Reaches (fun _ _ => True) crossed ∧ Deadlocked crossed
    ∧ ∀ calls, ¬Step Method.courses (fun _ _ => False) crossed calls := by
  -- Sizes are reconciled while dead versions are purged: each call waits for the lock of the other, and neither
  -- goes on.
  refine ⟨crossed_reached, ⟨{0, 1}, Finset.insert_nonempty _ _, fun i hi => ?_⟩, crossed_stuck⟩
  rcases Finset.mem_insert.mp hi with rfl | hi
  · exact ⟨1, by decide, by decide, _, _, .nodes, .write, .read, rfl, rfl, rfl, List.mem_cons_self, .inl rfl⟩
  · rw [Finset.mem_singleton.mp hi]
    exact ⟨0, by decide, by decide, _, _, .versions, .write, .read, rfl, rfl, rfl, List.mem_cons_self, .inl rfl⟩

end sample

end Dcfs.MemoryRepository
