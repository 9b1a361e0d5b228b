import Dcfs.Objects.Frames

namespace Dcfs

open Inodes Tables

namespace FsObjectStore

variable {disk disk' : Disk} {task : Task} {n : ℕ} {phase : Phase} {id : ObjectId} {own : Option ObjectId}

theorem readStep_spec {wanted got : Bytes} {offset file : ℕ} {len : Option ℕ} (hgot : got <+: wanted)
    (hwanted : wanted = len.elim ((disk.data file).drop offset) fun len => ((disk.data file).drop offset).take len) :
    readStep disk offset len n file got = .replying (.bytes wanted)
      ∨ ∃ more, readStep disk offset len n file got = .reading file more ∧ more <+: wanted := by
  have hpiece : ((disk.data file).drop (offset + got.length)).take
    (len.elim (n + 1) fun len => min (n + 1) (len - got.length))
      = (wanted.drop got.length).take (n + 1) := by
    cases len with
    | none => rw [hwanted, Option.elim, Option.elim, List.drop_drop]
    | some len => rw [hwanted, Option.elim, Option.elim, List.drop_take, List.drop_drop, List.take_take]
  obtain ⟨rest, rfl⟩ := hgot
  rw [List.drop_left] at hpiece
  unfold readStep
  dsimp only
  rw [hpiece]
  cases rest with
  | nil => exact .inl (by simp)
  | cons b rest =>
    refine .inr ⟨got ++ (b :: rest).take (n + 1), rfl, ?_⟩
    rw [List.prefix_append_right_inj]
    exact List.take_prefix ..

structure Advanced (disk : Disk) (task : Task) (disk' : Disk) (phase : Phase) : Prop where
  frame : Frame task.putting disk disk'
  ok : Task.Ok disk' { task with phase := phase }
  putting : ∀ id, ({ task with phase := phase } : Task).putting = some id → task.putting = some id
  move : Disk.objects disk' = Disk.objects disk
    ∧ ({ task with phase := phase } : Task).progress disk' = task.progress disk
    ∨ Atomic.Move (Disk.objects disk) task.request (task.progress disk) (Disk.objects disk')
      (({ task with phase := phase } : Task).progress disk')

theorem put_advanced (hsane : disk.Sane) {data : Bytes} {p : Phase} (hok : Task.Ok disk ⟨.put id data, p⟩)
    (h : putStep disk id data n p = some (disk', phase)) : Advanced disk ⟨.put id data, p⟩ disk' phase := by
  have hobjects : ∀ {j}, Disk.objects disk j = none ↔ disk.names.lookup (pathOf j) = none := Files.content_eq_none
  cases p with
  | begun =>
    cases h
    exact ⟨.refl hsane _, trivial, fun _ h => h, .inl ⟨rfl, rfl⟩⟩
  | looking =>
    rw [putStep] at h
    split_ifs at h with hthere
    · cases h
      refine ⟨.refl hsane _, trivial, (fun _ h => by cases h), .inr (.of_atomically ?_)⟩
      rw [Atomic.atomically, if_pos (show (Disk.objects disk id).isSome = true from hthere)]
    · cases h
      refine ⟨.refl hsane _, ?_, fun _ h => h, .inl ⟨rfl, rfl⟩⟩
      exact Files.content_eq_none.mp (Option.not_isSome_iff_eq_none.mp hthere)
  | creating =>
    cases h
    obtain ⟨hname, hempty, hother, -⟩ := Files.create_spec hsane (tempOf id)
    have hpaths : ∀ j, (disk.create (tempOf id)).2.names.lookup (pathOf j) = disk.names.lookup (pathOf j) :=
      fun j => hother _ (tempOf_ne_pathOf id j).symm
    have hframe := create_frame hsane id
    refine ⟨hframe, ⟨(hpaths id).trans hok, hname, ?_⟩, fun _ h => h, .inl ⟨objects_eq hsane hframe hpaths, rfl⟩⟩
    rw [hempty, List.nil_append]
  | writing file rest =>
    obtain ⟨habsent, htemp, hdata⟩ := hok
    cases rest with
    | nil =>
      cases h
      rw [List.append_nil] at hdata
      exact ⟨.refl hsane _, ⟨habsent, Files.content_eq_some.mpr ⟨file, htemp, hdata.symm⟩⟩, fun _ h => h,
        .inl ⟨rfl, rfl⟩⟩
    | cons b rest =>
      cases h
      have hframe := append_frame hsane htemp ((b :: rest).take (n + 1))
      refine ⟨hframe, ⟨habsent, htemp, ?_⟩, fun _ h => h, .inl ⟨objects_eq hsane hframe fun _ => rfl, rfl⟩⟩
      rw [Files.append_self, List.append_assoc, List.take_append_drop]
      exact hdata
  | placing =>
    obtain ⟨habsent, htemp⟩ := hok
    obtain ⟨file, hfile, -⟩ := Files.content_eq_some.mp htemp
    rw [putStep] at h
    split at h
    · rename_i moved hrename
      cases h
      refine ⟨rename_frame hsane hrename, trivial, (fun _ h => by cases h), .inr (.of_atomically ?_)⟩
      rw [objects_rename hsane hrename htemp, Atomic.atomically, hobjects.mpr habsent]
      rfl
    · rename_i hrename
      rw [Files.rename, hfile] at hrename
      cases hrename
  | reading file got => cases h
  | replying reply => cases h
  | answered reply => cases h
  | ended => cases h

theorem open_advanced (hsane : disk.Sane) {r : Request} (hr : ∀ j, (⟨r, .begun⟩ : Task).putting ≠ some j)
    (hnone : Disk.objects disk r.id = none →
      Atomic.atomically (Disk.objects disk) r = (.failed (.notFound r.id.toNat), Disk.objects disk))
    (hsome : ∀ data, Disk.objects disk r.id = some data →
      Atomic.atomically (Disk.objects disk) r = (.bytes (r.wanted data), Disk.objects disk)) :
    Advanced disk ⟨r, .begun⟩ disk (openStep disk r.id) := by
  unfold openStep
  cases hfile : disk.names.lookup (pathOf r.id) with
  | none =>
    refine ⟨.refl hsane _, ?_, fun j hj => ?_, .inr (.of_atomically (hnone (Files.content_eq_none.mpr hfile)))⟩
    · cases r <;> trivial
    · cases r <;> cases hj
  | some file =>
    have hok : Closed disk file ∧ [] <+: r.wanted (disk.data file) := ⟨Sane.closed hsane hfile, List.nil_prefix⟩
    have hact := hsome _ (Files.content_eq_some.mpr ⟨file, hfile, rfl⟩)
    refine ⟨.refl hsane _, ?_, fun j hj => ?_, .inr (.of_atomically hact)⟩
    · cases r <;> exact hok
    · cases r with
      | put id data => exact absurd rfl (hr id)
      | _ => cases hj

theorem putting_replying (r : Request) (reply : Reply) : (⟨r, .replying reply⟩ : Task).putting = none := by
  cases r <;> rfl

theorem ok_replying (disk : Disk) (r : Request) (reply : Reply) : Task.Ok disk ⟨r, .replying reply⟩ := by
  cases r <;> trivial

theorem replying_advanced (hsane : disk.Sane) {r : Request} {p : Phase} {reply : Reply}
    (hmove : (⟨r, p⟩ : Task).progress disk = .settled reply
      ∨ Atomic.Move (Disk.objects disk) r ((⟨r, p⟩ : Task).progress disk) (Disk.objects disk) (.settled reply)) :
    Advanced disk ⟨r, p⟩ disk (.replying reply) := by
  refine ⟨.refl hsane _, ok_replying _ _ _, fun j hj => ?_, ?_⟩
  · cases (putting_replying r reply).symm.trans hj
  · exact hmove.imp (fun h => ⟨rfl, h.symm⟩) fun h => h

theorem answer_advanced (hsane : disk.Sane) (r : Request) (reply : Reply) :
    Advanced disk ⟨r, .replying reply⟩ disk (.answered reply) := by
  refine ⟨.refl hsane _, ?_, fun j hj => ?_, .inr (.answer reply)⟩
  · cases r <;> trivial
  · cases r <;> cases hj

theorem read_advanced (hsane : disk.Sane) {r : Request} {offset file : ℕ} {len : Option ℕ} {got : Bytes}
    (hok : Closed disk file ∧ got <+: r.wanted (disk.data file)) (hr : ∀ p j, (⟨r, p⟩ : Task).putting ≠ some j)
    (hwanted : r.wanted (disk.data file) = len.elim ((disk.data file).drop offset) fun len =>
      ((disk.data file).drop offset).take len) :
    Advanced disk ⟨r, .reading file got⟩ disk (readStep disk offset len n file got) := by
  rcases readStep_spec hok.2 hwanted with hdone | ⟨more, hmore, hgot⟩
  · rw [hdone]
    exact replying_advanced hsane (.inl rfl)
  · rw [hmore]
    refine ⟨.refl hsane _, ?_, fun j hj => absurd hj (hr _ j), .inl ⟨rfl, rfl⟩⟩
    have hnow : Closed disk file ∧ more <+: r.wanted (disk.data file) := ⟨hok.1, hgot⟩
    cases r <;> exact hnow

theorem get_advanced (hsane : disk.Sane) {p : Phase} (hok : Task.Ok disk ⟨.get id, p⟩)
    (h : advance disk ⟨.get id, p⟩ n = some (disk', phase)) : Advanced disk ⟨.get id, p⟩ disk' phase := by
  cases p with
  | begun =>
    cases h
    refine open_advanced hsane (r := .get id) (fun _ hj => by cases hj) (fun hnone => ?_) fun data hdata => ?_
    · rw [Atomic.atomically, show Disk.objects disk id = none from hnone]
      rfl
    · rw [Atomic.atomically, show Disk.objects disk id = some data from hdata]
      rfl
  | reading file got =>
    cases h
    refine read_advanced hsane hok (fun p j hj => ?_) ?_
    · cases p <;> cases hj
    · rw [Option.elim, List.drop_zero]
      rfl
  | replying reply =>
    cases h
    exact answer_advanced hsane _ _
  | _ => cases h

theorem getRange_advanced (hsane : disk.Sane) {p : Phase} {offset len : ℕ}
    (hok : Task.Ok disk ⟨.getRange id offset len, p⟩)
    (h : advance disk ⟨.getRange id offset len, p⟩ n = some (disk', phase)) :
    Advanced disk ⟨.getRange id offset len, p⟩ disk' phase := by
  cases p with
  | begun =>
    cases h
    have hopen : Advanced disk ⟨.getRange id offset len, .begun⟩ disk (openStep disk id) := by
      refine open_advanced hsane (r := .getRange id offset len) (fun _ hj => by cases hj)
        (fun hnone => ?_) fun data hdata => ?_
      · rw [Atomic.atomically, show Disk.objects disk id = none from hnone]
        rfl
      · rw [Atomic.atomically, show Disk.objects disk id = some data from hdata]
        rfl
    unfold seekStep
    split
    · rename_i file got hreading
      split_ifs
      · exact replying_advanced hsane (.inr (.fail _))
      · exact ⟨.refl hsane _, trivial, (fun _ hj => by cases hj), .inr .lose⟩
      · rw [← hreading]
        exact hopen
    · exact hopen
  | reading file got =>
    cases h
    refine read_advanced hsane hok (fun p j hj => ?_) (rangeOf_eq _ _ _)
    cases p <;> cases hj
  | replying reply =>
    cases h
    exact answer_advanced hsane _ _
  | _ => cases h

theorem delete_advanced (hsane : disk.Sane) {p : Phase} (h : advance disk ⟨.delete id, p⟩ n = some (disk', phase)) :
    Advanced disk ⟨.delete id, p⟩ disk' phase := by
  cases p with
  | begun =>
    cases h
    refine ⟨remove_frame hsane id, trivial, (fun _ hj => by cases hj), .inr ?_⟩
    rw [objects_remove]
    exact .act
  | replying reply =>
    cases h
    exact answer_advanced hsane _ _
  | _ => cases h

theorem stat_advanced (hsane : disk.Sane) {p : Phase} (h : advance disk ⟨.stat id, p⟩ n = some (disk', phase)) :
    Advanced disk ⟨.stat id, p⟩ disk' phase := by
  cases p with
  | begun =>
    simp only [advance] at h
    split at h
    · rename_i data hdata
      cases h
      refine replying_advanced hsane (.inr (.of_atomically ?_))
      rw [Atomic.atomically, show Disk.objects disk id = some data from hdata]
      rfl
    · rename_i hnone
      cases h
      refine replying_advanced hsane (.inr (.of_atomically ?_))
      rw [Atomic.atomically, show Disk.objects disk id = none from hnone]
      rfl
  | replying reply =>
    cases h
    exact answer_advanced hsane _ _
  | _ => cases h

theorem advance_advanced (hsane : disk.Sane) (hok : task.Ok disk) (h : advance disk task n = some (disk', phase)) :
    Advanced disk task disk' phase := by
  obtain ⟨r, p⟩ := task
  cases r with
  | put id data =>
    cases p with
    | replying reply =>
      cases h
      exact answer_advanced hsane _ _
    | _ => exact put_advanced (n := n) hsane hok h
  | get id => exact get_advanced hsane hok h
  | getRange id offset len => exact getRange_advanced hsane hok h
  | delete id => exact delete_advanced hsane h
  | stat id => exact stat_advanced hsane h

theorem spoil_advanced (hsane : disk.Sane) {e : String} (h : spoil task e = some phase)
    (hlooking : ∀ id data, task = ⟨.put id data, .looking⟩ → disk.content (pathOf id) = none) :
    Advanced disk task disk phase := by
  obtain ⟨r, p⟩ := task
  cases p with
  | looking =>
    cases h
    cases r with
    | put id data =>
      exact ⟨.refl hsane _, Files.content_eq_none.mp (hlooking id data rfl), fun _ h => h, .inl ⟨rfl, rfl⟩⟩
    | _ => exact ⟨.refl hsane _, trivial, fun _ h => h, .inl ⟨rfl, rfl⟩⟩
  | reading file got =>
    cases h
    exact replying_advanced hsane (.inr (.failReading _ _))
  | replying reply => cases h
  | answered reply => cases h
  | ended => cases h
  | _ =>
    cases h
    exact replying_advanced hsane (.inr (.fail _))

end FsObjectStore

end Dcfs
