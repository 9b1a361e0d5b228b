import Dcfs.Objects.Disk
import Dcfs.Objects.Ranges

/-! The object store as it is meant: a map from ids to bytes, on which every request acts at one moment. -/

namespace Dcfs

open Inodes Tables

namespace FsObjectStore

namespace Atomic

inductive Progress
  | waiting
  | settled (reply : Reply)
  | answered (reply : Reply)
  | ended
  deriving DecidableEq

structure State where
  objects : ObjectId → Option Bytes
  calls : List (Request × Progress)

def atomically (objects : ObjectId → Option Bytes) : Request → Reply × (ObjectId → Option Bytes)
  | .put id data =>
    if (objects id).isSome then (.failed (.alreadyExists id.toNat), objects)
    else (.stored data.length, Function.update objects id (some data))
  | .get id => ((objects id).elim (.failed (.notFound id.toNat)) .bytes, objects)
  | .getRange id offset len =>
    ((objects id).elim (.failed (.notFound id.toNat)) fun data => .bytes (rangeOf data offset len), objects)
  | .delete id => (.removed, Function.update objects id none)
  | .stat id => ((objects id).elim (.failed (.notFound id.toNat)) fun data => .size data.length, objects)

def Progress.crashed : Progress → Progress
  | .answered reply => .answered reply
  | _ => .ended

inductive Move (objects : ObjectId → Option Bytes) (r : Request) :
    Progress → (ObjectId → Option Bytes) → Progress → Prop
  | act : Move objects r .waiting (atomically objects r).2 (.settled (atomically objects r).1)
  | answer (reply : Reply) : Move objects r (.settled reply) objects (.answered reply)
  | fail (e : String) : Move objects r .waiting objects (.settled (.failed (.backend e)))
  | failReading (data : Bytes) (e : String) :
    Move objects r (.settled (.bytes data)) objects (.settled (.failed (.backend e)))
  | lose : Move objects r .waiting objects .ended

theorem Move.of_atomically {objects objects' : ObjectId → Option Bytes} {r : Request} {reply : Reply}
    (h : atomically objects r = (reply, objects')) : Move objects r .waiting objects' (.settled reply) := by
  have hact : Move objects r .waiting (atomically objects r).2 (.settled (atomically objects r).1) := .act
  rwa [h] at hact

inductive Step : State → State → Prop
  | request (objects : ObjectId → Option Bytes) (calls : List (Request × Progress)) (r : Request) :
    Step ⟨objects, calls⟩ ⟨objects, calls ++ [(r, .waiting)]⟩
  | move {objects objects' : ObjectId → Option Bytes} {calls : List (Request × Progress)} {i : ℕ} {r : Request}
    {p p' : Progress}
    (h : calls[i]? = some (r, p)) (hmove : Move objects r p objects' p') :
    Step ⟨objects, calls⟩ ⟨objects', calls.set i (r, p')⟩
  | crash (objects : ObjectId → Option Bytes) (calls : List (Request × Progress)) :
    Step ⟨objects, calls⟩ ⟨objects, calls.map fun call => (call.1, call.2.crashed)⟩

def Reaches : State → State → Prop := Relation.ReflTransGen Step

end Atomic

def Request.wanted : Request → Bytes → Bytes
  | .getRange _ offset len, data => rangeOf data offset len
  | _, data => data

def Task.progress (disk : Disk) (task : Task) : Atomic.Progress :=
  match task.phase with
  | .reading file _ => .settled (.bytes (task.request.wanted (disk.data file)))
  | .replying reply => .settled reply
  | .answered reply => .answered reply
  | .ended => .ended
  | _ => .waiting

def Disk.objects (disk : Disk) (id : ObjectId) : Option Bytes := disk.content (pathOf id)

def State.atomic (s : State) : Atomic.State :=
  ⟨Disk.objects s.disk, s.tasks.map fun task => (task.request, task.progress s.disk)⟩

theorem eq_of_digits {n a b : ℕ} (ha : a < 16 ^ n) (hb : b < 16 ^ n)
    (h : ∀ k, k < n → a / 16 ^ k % 16 = b / 16 ^ k % 16) :
    a = b := by
  induction n generalizing a b with
  | zero => omega
  | succ n ih =>
    have hlow : a % 16 = b % 16 := by simpa using h 0 (Nat.succ_pos _)
    have hhigh : a / 16 = b / 16 := by
      apply ih
      · omega
      · omega
      · intro k hk
        have hk' := h (k + 1) (Nat.succ_lt_succ hk)
        rwa [Nat.pow_succ', ← Nat.div_div_eq_div_mul, ← Nat.div_div_eq_div_mul] at hk'
    omega

theorem digitChar_injective {a b : ℕ} (ha : a < 16) (hb : b < 16) (h : a.digitChar = b.digitChar) : a = b := by
  have hall : ∀ a < 16, ∀ b < 16, Nat.digitChar a = Nat.digitChar b → a = b := by decide
  exact hall a ha b hb h

theorem simple_injective {id id' : ObjectId} (h : simple id = simple id') : id = id' := by
  apply BitVec.eq_of_toNat_eq
  apply eq_of_digits (n := 32) id.isLt id'.isLt
  intro k hk
  have hdigit := List.map_inj_left.mp h (31 - k) (List.mem_range.mpr (by omega))
  rw [Nat.sub_sub_self (by omega)] at hdigit
  exact digitChar_injective (Nat.mod_lt _ (by omega)) (Nat.mod_lt _ (by omega)) hdigit

theorem length_simple (id : ObjectId) : (simple id).length = 32 := by
  rw [simple, List.length_map, List.length_range]

theorem pathOf_injective {id id' : ObjectId} (h : pathOf id = pathOf id') : id = id' :=
  simple_injective (congrArg StorePath.name h)

theorem tempOf_injective {id id' : ObjectId} (h : tempOf id = tempOf id') : id = id' :=
  simple_injective (List.append_cancel_right (congrArg StorePath.name h))

theorem tempOf_ne_pathOf (id id' : ObjectId) : tempOf id ≠ pathOf id' := by
  intro h
  have hlen := congrArg (fun path => path.name.length) h
  simp only [tempOf, pathOf, List.length_append, length_simple] at hlen
  exact absurd hlen (by decide)

end FsObjectStore

end Dcfs
