import Dcfs.Library.Pool
import Dcfs.Metadata.Nodes

namespace Dcfs

open Effects Tables World

abbrev Starters := Pool Sql Database (Option NodeRecord)

def noteRow : (s : Statement) → s.Reply → Option NodeRecord → Option NodeRecord
  | .selectRoot, row, _ => row
  | _, _, noted => noted

def postgres (arrange : List NodeRecord → List NodeRecord) : Service Sql Database (Option NodeRecord) where
  handle := execute arrange
  ready _ _ := true
  note := noteRow

inductive Starting (allows : Database → Statement → Prop) : Starters → Prop
  | empty (now : Time) : Starting allows ⟨emptyDatabase now, []⟩
  | start {p : Starters} : Starting allows p → Starting allows (p.spawn starter none)
  | step {p q : Starters} (arrange : List NodeRecord → List NodeRecord) (i : ℕ) : Starting allows p →
      (∀ rows, (arrange rows).Perm rows) →
      (∀ thread, p.threads[i]? = some thread → allows p.state thread.call) →
      p.advance (postgres arrange) i = some q → Starting allows q

def IsRoot (w : World) (row : NodeRecord) : Prop := w.nodes.lookup row.id = some row ∧ row.parentId = none

structure OneRoot (d : Database) : Prop where
  id_eq : ∀ {id node}, d.world.nodes.lookup id = some node → node.id = id
  unique : ∀ {a b}, IsRoot d.world a → IsRoot d.world b → a = b
  returned : ∀ row, .ok row ∈ d.returned → IsRoot d.world row

def ReturnsNoted : Statement → Option NodeRecord → Prop
  | .done (.ok row), noted => noted = some row
  | _, _ => True

theorem starter_promise :
    starter.Meets (promise noteRow ReturnsNoted) (fun _ _ => True) (none : Option NodeRecord) := by
  refine ⟨trivial, ?_⟩
  rintro (_ | row) _ rfl
  · refine ⟨trivial, ?_⟩
    rintro id _ rfl
    refine ⟨trivial, ?_⟩
    rintro _ _ rfl
    refine ⟨trivial, ?_⟩
    rintro (_ | row) _ rfl
    · exact ⟨trivial, fun _ _ _ => trivial⟩
    · exact ⟨rfl, fun _ _ _ => trivial⟩
  · exact ⟨rfl, fun _ _ _ => trivial⟩

variable {d : Database} {arrange : List NodeRecord → List NodeRecord}

theorem mem_roots (hd : OneRoot d) {row : NodeRecord} : row ∈ d.world.roots ↔ IsRoot d.world row := by
  rw [World.roots, List.mem_filter, mem_values, Option.isNone_iff_eq_none]
  constructor
  · rintro ⟨⟨id, hid⟩, hparent⟩
    exact ⟨hd.id_eq hid ▸ hid, hparent⟩
  · rintro ⟨hrow, hparent⟩
    exact ⟨⟨row.id, hrow⟩, hparent⟩

/-- A root is inserted only into a database that has none. -/
def Rootless (d : Database) : Statement → Prop
  | .insertRoot _ => d.world.roots = []
  | _ => True

instance (d : Database) : DecidablePred (Rootless d)
  | .insertRoot _ => inferInstanceAs (Decidable (_ = _))
  | .selectRoot | .newUuid | .done _ => inferInstanceAs (Decidable True)

theorem insertRoot_cases (w : World) (id : Uuid) : w.insertRoot id = w
    ∨ (w.nodes.lookup id = none
      ∧ w.insertRoot id = { w.tick with nodes := w.nodes.insert id (rootNode id w.now) }) := by
  unfold World.insertRoot
  split_ifs with hrow
  · exact .inl rfl
  · rw [World.hasRow, Bool.or_eq_true, not_or, Option.not_isSome_iff_eq_none] at hrow
    exact .inr ⟨hrow.1, rfl⟩

theorem isRoot_execute (s : Statement) {row : NodeRecord} (h : IsRoot d.world row) :
    IsRoot (execute arrange s d).2.world row := by
  cases s with
  | insertRoot id =>
    rcases insertRoot_cases d.world id with hsame | ⟨hnone, hnew⟩
    · rw [execute, hsame]
      exact h
    · refine ⟨?_, h.2⟩
      rw [execute, hnew, lookup_insert, if_neg]
      · exact h.1
      · rintro heq
        cases hnone.symm.trans (heq ▸ h.1)
  | _ => exact h

theorem execute_oneRoot (hd : OneRoot d) {s : Statement} (hallowed : Rootless d s)
    (hreturns : ∀ row, s = .done (.ok row) → IsRoot d.world row) : OneRoot (execute arrange s d).2 := by
  cases s with
  | selectRoot => exact hd
  | newUuid => exact ⟨hd.id_eq, hd.unique, hd.returned⟩
  | done result =>
    refine ⟨hd.id_eq, hd.unique, fun row hrow => ?_⟩
    rcases List.mem_cons.mp hrow with heq | hrow
    · exact hreturns row (by rw [heq])
    · exact hd.returned row hrow
  | insertRoot id =>
    have hkept : ∀ row, .ok row ∈ d.returned → IsRoot (execute arrange (.insertRoot id) d).2.world row :=
      fun row hrow => isRoot_execute (.insertRoot id) (hd.returned row hrow)
    rcases insertRoot_cases d.world id with hsame | ⟨-, hnew⟩
    · rw [execute, hsame]
      exact hd
    · have hnone : ∀ row, ¬ IsRoot d.world row := by
        intro row hrow
        rw [← mem_roots hd, hallowed] at hrow
        exact List.not_mem_nil hrow
      rw [execute, hnew] at hkept ⊢
      have hcases : ∀ {i node}, (d.world.nodes.insert id (rootNode id d.world.now)).lookup i = some node →
          i = id ∧ node = rootNode id d.world.now ∨ d.world.nodes.lookup i = some node := by
        intro i node hnode
        rw [lookup_insert] at hnode
        split_ifs at hnode with hi
        · exact .inl ⟨hi, (Option.some.inj hnode).symm⟩
        · exact .inr hnode
      have hroot : ∀ {row}, IsRoot { d.world.tick with
          nodes := d.world.nodes.insert id (rootNode id d.world.now) } row → row = rootNode id d.world.now := by
        rintro row ⟨hrow, hparent⟩
        rcases hcases hrow with ⟨-, heq⟩ | hold
        · exact heq
        · exact absurd ⟨hold, hparent⟩ (hnone row)
      refine ⟨fun hnode => ?_, fun ha hb => (hroot ha).trans (hroot hb).symm, hkept⟩
      rcases hcases hnode with ⟨rfl, rfl⟩ | hold
      · rfl
      · exact hd.id_eq hold

theorem noteRow_isRoot (hd : OneRoot d) (hperm : ∀ rows, (arrange rows).Perm rows) {noted : Option NodeRecord}
    (hnoted : ∀ row ∈ noted, IsRoot d.world row) (s : Statement) :
    ∀ row ∈ noteRow s (execute arrange s d).1 noted, IsRoot (execute arrange s d).2.world row := by
  intro row hrow
  cases s with
  | selectRoot =>
    have hmem : row ∈ arrange d.world.roots := List.mem_of_mem_head? hrow
    exact (mem_roots hd).mp ((hperm _).mem_iff.mp hmem)
  | newUuid => exact isRoot_execute .newUuid (hnoted row hrow)
  | insertRoot id => exact isRoot_execute (.insertRoot id) (hnoted row hrow)
  | done result => exact isRoot_execute (.done result) (hnoted row hrow)

theorem Starting.oneRoot {p : Starters} (h : Starting Rootless p) :
    p.Holds noteRow ReturnsNoted OneRoot (fun noted d => ∀ row ∈ noted, IsRoot d.world row) := by
  induction h with
  | empty now =>
    refine ⟨⟨fun h => ?_, fun h => ?_, fun _ h => absurd h List.not_mem_nil⟩,
      fun _ hmem => absurd hmem List.not_mem_nil, fun _ hmem => absurd hmem List.not_mem_nil⟩
    · cases h
    · cases h.1
  | start _ ih => exact ih.spawn (fun _ hrow => by cases hrow) starter_promise
  | @step p q arrange i _ hperm hallowed hq ih =>
    refine Pool.Holds.advance (S := postgres arrange) ih hq fun thread hthread hreturns hnoted _ => ?_
    refine ⟨execute_oneRoot ih.state (hallowed thread hthread) fun row hrow => ?_,
      noteRow_isRoot ih.state hperm hnoted thread.call,
      fun other _ hother row hrow => isRoot_execute _ (hother row hrow)⟩
    rw [hrow] at hreturns
    exact hnoted row hreturns

def starters : ℕ → Starters
  | 0 => ⟨emptyDatabase 0, []⟩
  | n + 1 => (starters n).spawn starter none

theorem starting_starters {allows : Database → Statement → Prop} : ∀ n, Starting allows (starters n)
  | 0 => .empty 0
  | n + 1 => .start (starting_starters n)

theorem one_root {p : Starters} (h : Starting Rootless p) :
    (∀ i j a b, p.state.world.nodes.lookup i = some a → a.parentId = none →
      p.state.world.nodes.lookup j = some b → b.parentId = none → i = j)
      ∧ ∀ row, .ok row ∈ p.state.returned →
        p.state.world.nodes.lookup row.id = some row ∧ row.parentId = none := by
  have hd := h.oneRoot.state
  refine ⟨fun i j a b ha hnone hb hnone' => ?_, hd.returned⟩
  have heq : a = b := hd.unique ⟨hd.id_eq ha ▸ ha, hnone⟩ ⟨hd.id_eq hb ▸ hb, hnone'⟩
  rw [← hd.id_eq ha, ← hd.id_eq hb, heq]

theorem one_root_shared : ∃ p : Starters, Starting Rootless p ∧ p.state.returned.length = 2
    ∧ (∀ i j a b, p.state.world.nodes.lookup i = some a → a.parentId = none →
      p.state.world.nodes.lookup j = some b → b.parentId = none → i = j)
    ∧ ∀ row, .ok row ∈ p.state.returned →
      p.state.world.nodes.lookup row.id = some row ∧ row.parentId = none := by
  obtain ⟨p, hp, hlength⟩ : ∃ p ∈ (starters 2).schedule (postgres id)
      (fun p i => decide (∀ thread ∈ p.threads[i]?, Rootless p.state thread.call)) [0, 0, 0, 1, 0, 1, 0],
      p.state.returned.length = 2 := by
    decide
  have hrun : Starting Rootless p := Pool.schedule_induction
    (fun _ _ i hp hcheck hq => hp.step id i (fun _ => .refl _) (of_decide_eq_true hcheck) hq)
    (starting_starters 2) hp
  exact ⟨p, hrun, hlength, one_root hrun⟩

theorem two_roots : ∃ p : Starters, Starting (fun _ _ => True) p ∧ ∃ i j a b, i ≠ j
    ∧ p.state.world.nodes.lookup i = some a ∧ a.parentId = none
    ∧ p.state.world.nodes.lookup j = some b ∧ b.parentId = none := by
  -- Two servers both find no root, and both make one.
  obtain ⟨p, hp, a, ha, b, hb, hnone, hnone'⟩ :
      ∃ p ∈ (starters 2).schedule (postgres id) (fun _ _ => true) [0, 1, 0, 0, 1, 1],
        ∃ a ∈ p.state.world.nodes.lookup 0, ∃ b ∈ p.state.world.nodes.lookup 1,
          a.parentId = none ∧ b.parentId = none := by
    decide
  have hrun : Starting (fun _ _ => True) p := Pool.schedule_induction
    (fun _ _ i hp _ hq => hp.step id i (fun _ => .refl _) (fun _ _ => trivial) hq) (starting_starters 2) hp
  exact ⟨p, hrun, 0, 1, a, b, by decide, ha, hnone, hb, hnone'⟩

end Dcfs
