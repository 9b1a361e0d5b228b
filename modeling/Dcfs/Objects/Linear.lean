import Dcfs.Objects.Advances

namespace Dcfs

open Inodes Tables

namespace FsObjectStore

variable {disk disk' : Disk} {task : Task} {n : ℕ} {phase : Phase} {id : ObjectId} {own : Option ObjectId}

structure Sound (s : State) : Prop where
  sane : s.disk.Sane
  ok : ∀ {i : ℕ} {task : Task}, s.tasks[i]? = some task → task.Ok s.disk
  alone : ∀ {i j : ℕ} {a b : Task} {id : ObjectId}, s.tasks[i]? = some a → s.tasks[j]? = some b → a.putting = some id →
    b.putting = some id → i = j

variable {s s' : State}

theorem opened_sound : Sound opened := by
  refine ⟨Files.empty_sane, fun h => ?_, fun h => ?_⟩
  · cases h
  · cases h

theorem progress_framed (hframe : Frame own disk disk') (hok : task.Ok disk) :
    task.progress disk' = task.progress disk := by
  obtain ⟨r, p⟩ := task
  cases p with
  | reading file got =>
    have hclosed : Closed disk file := by
      cases r <;> exact hok.1
    simp only [Task.progress, hframe.data_closed hclosed]
  | _ => rfl

theorem Advanced.sound (hs : Sound s) {i : ℕ} (hi : s.tasks[i]? = some task) (h : Advanced s.disk task disk' phase) :
    Sound ⟨disk', s.tasks.set i { task with phase := phase }⟩ := by
  -- a request of the new list is the one that has moved on, or another as it was
  have hlookup : ∀ {j : ℕ} {a : Task}, (s.tasks.set i { task with phase := phase })[j]? = some a →
      j = i ∧ a = { task with phase := phase } ∨ j ≠ i ∧ s.tasks[j]? = some a := by
    intro j a ha
    rw [List.getElem?_set] at ha
    split_ifs at ha with hij hlt
    · exact .inl ⟨hij.symm, (Option.some.inj ha).symm⟩
    · exact .inr ⟨Ne.symm hij, ha⟩
  -- and puts nothing that it did not put before
  have hputting : ∀ {j : ℕ} {a : Task} {id : ObjectId}, (s.tasks.set i { task with phase := phase })[j]? = some a →
      a.putting = some id → ∃ b, s.tasks[j]? = some b ∧ b.putting = some id := by
    intro j a id ha hid
    rcases hlookup ha with ⟨rfl, rfl⟩ | ⟨-, hold⟩
    · exact ⟨task, hi, h.putting id hid⟩
    · exact ⟨a, hold, hid⟩
  refine ⟨h.frame.sane, fun {j a} ha => ?_, fun {j k a b id} ha hb hida hidb => ?_⟩
  · rcases hlookup ha with ⟨-, rfl⟩ | ⟨hne, hold⟩
    · exact h.ok
    · exact (hs.ok hold).framed hs.sane h.frame fun id hid hown => hne (hs.alone hold hi hid hown)
  · obtain ⟨a', ha', hida'⟩ := hputting ha hida
    obtain ⟨b', hb', hidb'⟩ := hputting hb hidb
    exact hs.alone ha' hb' hida' hidb'

theorem Advanced.atomic (hs : Sound s) {i : ℕ} (hi : s.tasks[i]? = some task) (h : Advanced s.disk task disk' phase) :
    State.atomic ⟨disk', s.tasks.set i { task with phase := phase }⟩ = s.atomic
      ∨ Atomic.Step s.atomic (State.atomic ⟨disk', s.tasks.set i { task with phase := phase }⟩) := by
  have hcall : s.atomic.calls[i]? = some (task.request, task.progress s.disk) := by
    rw [State.atomic, List.getElem?_map, hi, Option.map_some]
  have hcalls : State.atomic ⟨disk', s.tasks.set i { task with phase := phase }⟩ = ⟨Disk.objects disk',
      s.atomic.calls.set i (task.request, ({ task with phase := phase } : Task).progress disk')⟩ := by
    rw [State.atomic, State.atomic, List.map_set]
    congr 2
    refine List.map_congr_left fun other hother => ?_
    obtain ⟨j, hj⟩ := List.getElem?_of_mem hother
    rw [progress_framed h.frame (hs.ok hj)]
  rw [hcalls]
  rcases h.move with ⟨hobjects, hprogress⟩ | hmove
  · left
    obtain ⟨hlt, hself⟩ := List.getElem?_eq_some_iff.mp hcall
    rw [hobjects, hprogress, ← hself, List.set_getElem_self]
    rfl
  · exact .inr (.move hcall hmove)

theorem request_sound (hs : Sound s) {r : Request} (hr : allowed s (.request r)) :
    Sound { s with tasks := s.tasks ++ [⟨r, .begun⟩] } := by
  have hlookup : ∀ {j : ℕ} {a : Task}, (s.tasks ++ [⟨r, .begun⟩])[j]? = some a →
      s.tasks[j]? = some a ∨ j = s.tasks.length ∧ a = ⟨r, .begun⟩ := by
    intro j a ha
    rw [List.getElem?_append] at ha
    split_ifs at ha with hlt
    · exact .inl ha
    · rw [List.getElem?_singleton] at ha
      split_ifs at ha with hzero
      exact .inr ⟨by omega, (Option.some.inj ha).symm⟩
  -- an old request is not putting what the new one puts
  have hnew : ∀ {j : ℕ} {a : Task} {id : ObjectId}, s.tasks[j]? = some a → a.putting = some id →
      (⟨r, .begun⟩ : Task).putting ≠ some id := by
    intro j a id ha hid hc
    cases r with
    | put id' data =>
      cases hc
      exact hr a (List.mem_of_getElem? ha) hid
    | _ => cases hc
  refine ⟨hs.sane, fun ha => ?_, fun ha hb hida hidb => ?_⟩
  · rcases hlookup ha with hold | ⟨-, rfl⟩
    · exact hs.ok hold
    · cases r <;> trivial
  · rcases hlookup ha with hold | ⟨rfl, rfl⟩
    · rcases hlookup hb with hold' | ⟨-, rfl⟩
      · exact hs.alone hold hold' hida hidb
      · exact absurd hidb (hnew hold hida)
    · rcases hlookup hb with hold' | ⟨rfl, -⟩
      · exact absurd hida (hnew hold' hidb)
      · rfl

theorem crashed_putting (task : Task) : task.crashed.putting = none := by
  obtain ⟨r, p⟩ := task
  cases p <;> cases r <;> rfl

theorem crash_sound (hs : Sound s) : Sound { s with tasks := s.tasks.map Task.crashed } := by
  have hlookup : ∀ {j : ℕ} {a : Task}, (s.tasks.map Task.crashed)[j]? = some a → ∃ b, a = Task.crashed b := by
    intro j a ha
    rw [List.getElem?_map] at ha
    obtain ⟨b, -, rfl⟩ := Option.map_eq_some_iff.mp ha
    exact ⟨b, rfl⟩
  refine ⟨hs.sane, fun ha => ?_, fun ha _ hida => ?_⟩
  · obtain ⟨⟨r, p⟩, rfl⟩ := hlookup ha
    cases p <;> cases r <;> trivial
  · obtain ⟨b, rfl⟩ := hlookup ha
    cases (crashed_putting b).symm.trans hida

theorem crash_atomic (s : State) : State.atomic { s with tasks := s.tasks.map Task.crashed }
    = ⟨s.atomic.objects, s.atomic.calls.map fun call => (call.1, call.2.crashed)⟩ := by
  rw [State.atomic, State.atomic, List.map_map, List.map_map]
  congr 2
  funext task
  obtain ⟨r, p⟩ := task
  cases p <;> rfl

theorem step_sound {act : Act} (hs : Sound s) (hact : allowed s act) (h : step s act = some s') :
    Sound s' ∧ (s'.atomic = s.atomic ∨ Atomic.Step s.atomic s'.atomic) := by
  cases act with
  | request r =>
    cases h
    refine ⟨request_sound hs hact, .inr ?_⟩
    rw [State.atomic, State.atomic, List.map_append]
    exact .request _ _ r
  | advance i n =>
    simp only [step, Option.bind_eq_bind, Option.bind_eq_some_iff] at h
    obtain ⟨task, hi, ⟨disk, phase⟩, hadvance, hs'⟩ := h
    cases hs'
    have hadvanced := advance_advanced hs.sane (hs.ok hi) hadvance
    exact ⟨hadvanced.sound hs hi, hadvanced.atomic hs hi⟩
  | spoil i e =>
    simp only [step, Option.bind_eq_bind, Option.bind_eq_some_iff] at h
    obtain ⟨task, hi, phase, hspoil, hs'⟩ := h
    cases hs'
    have hadvanced : Advanced s.disk task s.disk phase := by
      refine spoil_advanced hs.sane hspoil fun id data htask => hact id data ?_
      rw [hi, htask]
    exact ⟨hadvanced.sound hs hi, hadvanced.atomic hs hi⟩
  | crash =>
    cases h
    refine ⟨crash_sound hs, .inr ?_⟩
    rw [crash_atomic]
    exact .crash _ _

theorem reaches_atomic (hs : Sound s) (h : Reaches s s') : Sound s' ∧ Atomic.Reaches s.atomic s'.atomic := by
  induction h with
  | refl => exact ⟨hs, .refl⟩
  | tail _ hstep ih =>
    obtain ⟨act, hact, hstep⟩ := hstep
    obtain ⟨hsound, hatomic⟩ := ih
    obtain ⟨hsound', heq | hnext⟩ := step_sound hsound hact hstep
    · rw [heq]
      exact ⟨hsound', hatomic⟩
    · exact ⟨hsound', hatomic.tail hnext⟩

namespace Atomic

theorem map_fst_set {calls : List (Request × Progress)} {i : ℕ} {r : Request} {p p' : Progress}
    (h : calls[i]? = some (r, p)) :
    (calls.set i (r, p')).map Prod.fst = calls.map Prod.fst := by
  apply List.ext_getElem?
  intro j
  rw [List.getElem?_map, List.getElem?_map, List.getElem?_set]
  split_ifs with hij hlt
  · rw [← hij, h]
    rfl
  · exact absurd (List.getElem?_eq_some_iff.mp h).1 hlt
  · rfl

theorem atomically_objects {objects : ObjectId → Option Bytes} {r : Request} {id : ObjectId} {data : Bytes}
    (h : (atomically objects r).2 id = some data) : objects id = some data ∨ r = .put id data := by
  cases r with
  | put id' data' =>
    rw [atomically] at h
    split_ifs at h
    · exact .inl h
    · dsimp only at h
      rw [Function.update_apply] at h
      split_ifs at h with hid
      · cases h
        rw [hid]
        exact .inr rfl
      · exact .inl h
  | delete id' =>
    dsimp only [atomically] at h
    rw [Function.update_apply] at h
    split_ifs at h
    exact .inl h
  | _ => exact .inl h

theorem Reaches.requested {a : State} (h : Reaches ⟨fun _ => none, []⟩ a) {id : ObjectId} {data : Bytes}
    (hdata : a.objects id = some data) : .put id data ∈ a.calls.map Prod.fst := by
  induction h with
  | refl => cases hdata
  | tail _ hstep ih =>
    cases hstep with
    | request objects calls r =>
      rw [List.map_append]
      exact List.mem_append_left _ (ih hdata)
    | move hi hmove =>
      rw [map_fst_set hi]
      cases hmove with
      | act =>
        rcases atomically_objects hdata with hold | rfl
        · exact ih hold
        · exact List.mem_map.mpr ⟨_, List.mem_of_getElem? hi, rfl⟩
      | _ => exact ih hdata
    | crash objects calls =>
      rw [List.map_map]
      exact ih hdata

end Atomic

/--
The store in a directory is the map that it is meant to be: in every order of the steps of any number of requests, with
steps that fail and the process ending at any point, what happens between two moments is a run of the map, in which each
request acts at one moment between its call and its answer, or not at all. What is at the path of an object is the whole
of what some request was to put there.
-/
theorem directory_refines_map (h : Reaches opened s) (h' : Reaches s s') :
    Atomic.Reaches s.atomic s'.atomic
      ∧ ∀ id data, s'.disk.content (pathOf id) = some data → ∃ task ∈ s'.tasks, task.request = .put id data := by
  have hsound := (reaches_atomic opened_sound h).1
  have hatomic : Atomic.Reaches ⟨fun _ => none, []⟩ s'.atomic := (reaches_atomic opened_sound (h.trans h')).2
  refine ⟨(reaches_atomic hsound h').2, fun id data hdata => ?_⟩
  have hput := hatomic.requested hdata
  rw [State.atomic, List.map_map] at hput
  exact List.mem_map.mp hput

def cutShort : List Act :=
  [.request (.put 0 [1, 2, 3]), .advance 0 0, .advance 0 0, .advance 0 0, .advance 0 0, .crash]

def resumed : List Act :=
  [.request (.put 0 [7, 8]), .advance 1 0, .advance 1 0, .advance 1 0, .request (.get 0), .advance 2 0,
    .advance 1 5, .advance 1 0, .advance 1 0, .request (.get 0), .advance 3 0, .advance 1 0, .advance 2 0,
    .advance 3 0, .advance 3 0, .advance 3 0, .advance 3 0]

theorem directory_refines_map_resumed : ∃ s s', Reaches opened s ∧ Reaches s s'
    ∧ s.tasks.map Task.phase = [.ended]
    ∧ s'.tasks.map Task.phase
      = [.ended, .answered (.stored 2), .answered (.failed (.notFound 0)), .answered (.bytes [7, 8])]
    ∧ Atomic.Reaches s.atomic s'.atomic
    ∧ ∀ id data, s'.disk.content (pathOf id) = some data → ∃ task ∈ s'.tasks, task.request = .put id data := by
  obtain ⟨s, hs, s', hs', hbefore, hafter⟩ :
      ∃ s ∈ Steps.play step allowed cutShort opened, ∃ s' ∈ Steps.play step allowed resumed s,
        s.tasks.map Task.phase = [.ended] ∧ s'.tasks.map Task.phase
          = [.ended, .answered (.stored 2), .answered (.failed (.notFound 0)), .answered (.bytes [7, 8])] := by
    decide +kernel
  have h : Reaches opened s := Steps.reaches_of_play _ hs
  have h' : Reaches s s' := Steps.reaches_of_play _ hs'
  exact ⟨s, s', h, h', hbefore, hafter, directory_refines_map h h'⟩

end FsObjectStore

end Dcfs
