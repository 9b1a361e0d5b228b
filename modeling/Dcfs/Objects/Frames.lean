import Dcfs.Objects.Atomic

namespace Dcfs

open Inodes Tables

namespace FsObjectStore

variable {disk disk' : Disk} {task : Task} {n : ℕ} {phase : Phase} {id : ObjectId} {own : Option ObjectId}

def Closed (disk : Disk) (file : ℕ) : Prop := file < disk.next ∧ ∀ id, disk.names.lookup (tempOf id) ≠ some file

def Task.Ok (disk : Disk) (task : Task) : Prop :=
  match task.request, task.phase with
  | .put id _, .creating => disk.names.lookup (pathOf id) = none
  | .put id data, .writing file rest => disk.names.lookup (pathOf id) = none ∧ disk.names.lookup (tempOf id) = some file
    ∧ data = disk.data file ++ rest
  | .put id data, .placing => disk.names.lookup (pathOf id) = none ∧ disk.content (tempOf id) = some data
  | r, .reading file got => Closed disk file ∧ got <+: r.wanted (disk.data file)
  | _, _ => True

structure Frame (own : Option ObjectId) (disk disk' : Disk) : Prop where
  sane : disk'.Sane
  temps : ∀ id, own ≠ some id → disk'.names.lookup (tempOf id) = disk.names.lookup (tempOf id)
  absent : ∀ id, own ≠ some id → disk.names.lookup (pathOf id) = none → disk'.names.lookup (pathOf id) = none
  data : ∀ file, file < disk.next → (∀ id, own = some id → disk.names.lookup (tempOf id) ≠ some file) →
    disk'.data file = disk.data file
  closed : ∀ file, Closed disk file → Closed disk' file

theorem Frame.refl (h : disk.Sane) (own : Option ObjectId) : Frame own disk disk :=
  ⟨h, fun _ _ => rfl, fun _ _ h => h, fun _ _ _ => rfl, fun _ h => h⟩

theorem Frame.data_closed (h : Frame own disk disk') {file : ℕ} (hf : Closed disk file) :
    disk'.data file = disk.data file :=
  h.data file hf.1 fun id _ => hf.2 id

theorem Sane.closed (h : disk.Sane) {file : ℕ} (hf : disk.names.lookup (pathOf id) = some file) : Closed disk file :=
  ⟨h.below hf, fun id' hc => tempOf_ne_pathOf id' id (h.single hc hf)⟩

theorem create_frame (h : disk.Sane) (id : ObjectId) : Frame (some id) disk (disk.create (tempOf id)).2 := by
  obtain ⟨hname, -, hother, hdata, hnext, hsane⟩ := Files.create_spec h (tempOf id)
  refine ⟨hsane, fun j hj => hother _ fun heq => hj (congrArg some (tempOf_injective heq).symm),
    fun j _ habsent => ?_, fun file hlt hfile => ?_, fun file hclosed => ⟨hclosed.1.trans_le hnext, fun j hj => ?_⟩⟩
  · rw [hother _ (tempOf_ne_pathOf id j).symm]
    exact habsent
  · refine hdata file ?_ hlt
    rintro q hq rfl
    exact hfile id rfl hq
  · by_cases hid : j = id
    · subst hid
      rw [hname] at hj
      cases hj
      rcases Files.create_fst disk (tempOf j) with hold | hfresh
      · exact hclosed.2 j hold
      · rw [hfresh] at hclosed
        exact absurd hclosed.1 (lt_irrefl _)
    · rw [hother _ fun heq => hid (tempOf_injective heq)] at hj
      exact hclosed.2 j hj

theorem append_frame (h : disk.Sane) {file : ℕ} (hfile : disk.names.lookup (tempOf id) = some file) (xs : Bytes) :
    Frame (some id) disk (disk.append file xs) := by
  refine ⟨h.append, fun _ _ => rfl, fun _ _ h => h, fun j _ hj => Files.append_of_ne ?_, fun _ hclosed => hclosed⟩
  rintro rfl
  exact hj id rfl hfile

theorem rename_frame (h : disk.Sane) (hrename : disk.rename (tempOf id) (pathOf id) = some disk') :
    Frame (some id) disk disk' := by
  have hsane := h.rename hrename (tempOf_ne_pathOf id id)
  obtain ⟨file, hfile, hdata, hnext, hpath, htemp, hother⟩ := Files.lookup_rename hrename (tempOf_ne_pathOf id id)
  refine ⟨hsane, fun j hj => hother _ (fun heq => hj (congrArg some (tempOf_injective heq).symm))
    (tempOf_ne_pathOf j id),
    fun j hj habsent => ?_, fun i _ _ => by rw [hdata],
      fun i hclosed => ⟨by rw [hnext]; exact hclosed.1, fun j hj => ?_⟩⟩
  · rw [hother _ (tempOf_ne_pathOf id j).symm fun heq => hj (congrArg some (pathOf_injective heq).symm)]
    exact habsent
  · by_cases hid : j = id
    · subst hid
      cases htemp.symm.trans hj
    · rw [hother _ (fun heq => hid (tempOf_injective heq)) (tempOf_ne_pathOf j id)] at hj
      exact hclosed.2 j hj

theorem remove_frame (h : disk.Sane) (id : ObjectId) : Frame own disk (disk.remove (pathOf id)) := by
  refine ⟨h.remove, fun j _ => ?_, fun j _ habsent => ?_, fun _ _ _ => rfl,
    fun i hclosed => ⟨hclosed.1, fun j hj => ?_⟩⟩
  · rw [Files.lookup_remove, if_neg (tempOf_ne_pathOf j id)]
  · rw [Files.lookup_remove]
    split_ifs
    · rfl
    · exact habsent
  · rw [Files.lookup_remove, if_neg (tempOf_ne_pathOf j id)] at hj
    exact hclosed.2 j hj

theorem Task.Ok.framed (h : task.Ok disk) (hsane : disk.Sane) (hframe : Frame own disk disk')
    (hother : ∀ id, task.putting = some id → own ≠ some id) : task.Ok disk' := by
  obtain ⟨r, p⟩ := task
  cases p with
  | reading file got =>
    have hclosed : Closed disk file ∧ got <+: r.wanted (disk.data file) := by
      cases r <;> exact h
    have hnow : Closed disk' file ∧ got <+: r.wanted (disk'.data file) :=
      ⟨hframe.closed file hclosed.1, by rw [hframe.data_closed hclosed.1]; exact hclosed.2⟩
    cases r <;> exact hnow
  | creating =>
    cases r with
    | put id data => exact hframe.absent id (hother id rfl) h
    | _ => trivial
  | writing file rest =>
    cases r with
    | put id data =>
      obtain ⟨habsent, htemp, hdata⟩ := h
      have hown := hother id rfl
      refine ⟨hframe.absent id hown habsent, (hframe.temps id hown).trans htemp, ?_⟩
      rw [hframe.data file (hsane.below htemp)]
      · exact hdata
      · intro j hj hfile
        rw [tempOf_injective (hsane.single hfile htemp)] at hj
        exact hown hj
    | _ => trivial
  | placing =>
    cases r with
    | put id data =>
      obtain ⟨habsent, htemp⟩ := h
      have hown := hother id rfl
      obtain ⟨file, hfile, hdata⟩ := Files.content_eq_some.mp htemp
      refine ⟨hframe.absent id hown habsent, Files.content_eq_some.mpr ⟨file, (hframe.temps id hown).trans hfile, ?_⟩⟩
      rw [hframe.data file (hsane.below hfile)]
      · exact hdata
      · intro j hj hfile'
        rw [tempOf_injective (hsane.single hfile' hfile)] at hj
        exact hown hj
    | _ => trivial
  | _ => cases r <;> trivial

theorem objects_eq (hsane : disk.Sane) (hframe : Frame own disk disk')
    (hpaths : ∀ id, disk'.names.lookup (pathOf id) = disk.names.lookup (pathOf id)) :
    Disk.objects disk' = Disk.objects disk := by
  funext id
  rw [Disk.objects, Disk.objects, Files.content, Files.content, hpaths]
  cases hfile : disk.names.lookup (pathOf id) with
  | none => rfl
  | some file => rw [Option.map_some, Option.map_some, hframe.data_closed (Sane.closed hsane hfile)]

theorem objects_rename (hsane : disk.Sane) (hrename : disk.rename (tempOf id) (pathOf id) = some disk') {data : Bytes}
    (htemp : disk.content (tempOf id) = some data) :
    Disk.objects disk' = Function.update (Disk.objects disk) id (some data) := by
  have hframe := rename_frame hsane hrename
  obtain ⟨file, hfile, hdata, -, hpath, -, hother⟩ := Files.lookup_rename hrename (tempOf_ne_pathOf id id)
  obtain ⟨file', hfile', rfl⟩ := Files.content_eq_some.mp htemp
  cases hfile.symm.trans hfile'
  funext j
  rw [Function.update_apply]
  split_ifs with hj
  · rw [hj, Disk.objects, Files.content, hpath, Option.map_some, hdata]
  · rw [Disk.objects, Disk.objects, Files.content, Files.content,
      hother _ (tempOf_ne_pathOf id j).symm fun heq => hj (pathOf_injective heq), hdata]

theorem objects_remove (disk : Disk) (id : ObjectId) :
    Disk.objects (disk.remove (pathOf id)) = Function.update (Disk.objects disk) id none := by
  funext j
  rw [Function.update_apply, Disk.objects, Files.content, Files.lookup_remove]
  split_ifs with hpath hj hj
  · rfl
  · exact absurd (pathOf_injective hpath) hj
  · exact absurd (congrArg pathOf hj) hpath
  · rfl

end FsObjectStore

end Dcfs
