import Dcfs.Library.Files
import Dcfs.Library.Steps
import Dcfs.Metadata.Records
import Mathlib.Data.BitVec
import Mathlib.Logic.Relation

/-!
The object store in a directory, used by any number of requests at once. Each operation on the file system is
a step of its own, and the process may end between any two of them.
-/

namespace Dcfs

open Inodes

namespace FsObjectStore

abbrev ObjectId := BitVec 128

-- `Uuid::simple`: 32 lower-case hexadecimal digits.
def simple (id : ObjectId) : List Char := (List.range 32).map fun k => (id.toNat / 16 ^ (31 - k) % 16).digitChar

structure StorePath where
  folder : List Char
  name : List Char
  deriving DecidableEq

def pathOf (id : ObjectId) : StorePath := ⟨(simple id).take 2, simple id⟩

-- `with_extension("partial")` of a name without a dot.
def tempOf (id : ObjectId) : StorePath := { pathOf id with name := simple id ++ ".partial".toList }

abbrev Disk := Files StorePath UInt8

inductive Request
  | put (id : ObjectId) (data : Bytes)
  | get (id : ObjectId)
  | getRange (id : ObjectId) (offset len : ℕ)
  | delete (id : ObjectId)
  | stat (id : ObjectId)
  deriving DecidableEq

def Request.id : Request → ObjectId
  | .put id _ | .get id | .getRange id _ _ | .delete id | .stat id => id

inductive Reply
  | stored (size : ℕ)
  | bytes (data : Bytes)
  | removed
  | size (n : ℕ)
  | failed (e : ObjectStoreError)
  deriving DecidableEq

/-- What a request does next; with a file open, what it has still to write or has read so far. An answer is made up
before it is given. -/
inductive Phase
  | begun
  | looking
  | creating
  | writing (file : ℕ) (rest : Bytes)
  | placing
  | reading (file : ℕ) (got : Bytes)
  | replying (reply : Reply)
  | answered (reply : Reply)
  | ended
  deriving DecidableEq

structure Task where
  request : Request
  phase : Phase
  deriving DecidableEq

def notFound (id : ObjectId) : Phase := .replying (.failed (.notFound id.toNat))

def putStep (disk : Disk) (id : ObjectId) (data : Bytes) (n : ℕ) : Phase → Option (Disk × Phase)
  -- `put`, after the folder is there: immutable, so an id that is taken is refused.
  | .begun => some (disk, .looking)
  | .looking =>
    if (disk.content (pathOf id)).isSome then some (disk, .replying (.failed (.alreadyExists id.toNat)))
    else some (disk, .creating)
  | .creating => some ((disk.create (tempOf id)).2, .writing (disk.create (tempOf id)).1 data)
  | .writing _ [] => some (disk, .placing)
  | .writing file (b :: rest) =>
    some (disk.append file ((b :: rest).take (n + 1)), .writing file ((b :: rest).drop (n + 1)))
  | .placing =>
    match disk.rename (tempOf id) (pathOf id) with
    | some disk => some (disk, .replying (.stored data.length))
    | none => some (disk, notFound id)
  | _ => none

def openStep (disk : Disk) (id : ObjectId) : Phase :=
  match disk.names.lookup (pathOf id) with
  | some file => .reading file []
  | none => notFound id

def seekStep (offset len : ℕ) (phase : Phase) : Phase :=
  -- Seeking takes a signed offset, and a buffer has at most `isize::MAX` bytes: the request panics.
  match phase with
  | .reading file got =>
    if 2 ^ 63 ≤ offset then .replying (.failed (.backend "Invalid argument (os error 22)"))
    else if 2 ^ 63 ≤ len then .ended
    else .reading file got
  | phase => phase

def readStep (disk : Disk) (offset : ℕ) (len : Option ℕ) (n file : ℕ) (got : Bytes) : Phase :=
  let count := len.elim (n + 1) fun len => min (n + 1) (len - got.length)
  match ((disk.data file).drop (offset + got.length)).take count with
  | [] => .replying (.bytes got)
  | piece => .reading file (got ++ piece)

def advance (disk : Disk) (task : Task) (n : ℕ) : Option (Disk × Phase) :=
  match task.request, task.phase with
  | _, .replying reply => some (disk, .answered reply)
  | .put id data, phase => putStep disk id data n phase
  | .get id, .begun => some (disk, openStep disk id)
  | .get _, .reading file got => some (disk, readStep disk 0 none n file got)
  | .getRange id offset len, .begun => some (disk, seekStep offset len (openStep disk id))
  | .getRange _ offset len, .reading file got => some (disk, readStep disk offset (some len) n file got)
  | .delete id, .begun => some (disk.remove (pathOf id), .replying .removed)
  | .stat id, .begun =>
    match disk.content (pathOf id) with
    | some data => some (disk, .replying (.size data.length))
    | none => some (disk, notFound id)
  | _, _ => none

/-- The next step fails, and not because something is missing. Looking for the object then counts as not finding it. -/
def spoil (task : Task) (e : String) : Option Phase :=
  match task.phase with
  | .replying _ | .answered _ | .ended => none
  | .looking => some .creating
  | _ => some (.replying (.failed (.backend e)))

structure State where
  disk : Disk
  tasks : List Task

def opened : State := ⟨.empty, []⟩

inductive Act
  | request (r : Request)
  | advance (i n : ℕ)
  | spoil (i : ℕ) (e : String)
  | crash

def Task.crashed (task : Task) : Task :=
  match task.phase with
  | .answered _ => task
  | _ => { task with phase := .ended }

def step (s : State) : Act → Option State
  | .request r => some { s with tasks := s.tasks ++ [⟨r, .begun⟩] }
  | .advance i n => do
    let task ← s.tasks[i]?
    let (disk, phase) ← FsObjectStore.advance s.disk task n
    some ⟨disk, s.tasks.set i { task with phase := phase }⟩
  | .spoil i e => do
    let task ← s.tasks[i]?
    let phase ← FsObjectStore.spoil task e
    some { s with tasks := s.tasks.set i { task with phase := phase } }
  | .crash => some { s with tasks := s.tasks.map Task.crashed }

def Task.putting (task : Task) : Option ObjectId :=
  match task.request, task.phase with
  | _, .replying _ | _, .answered _ | _, .ended => none
  | .put id _, _ => some id
  | _, _ => none

/-- An id is put by one request at a time, and looking for an object does not fail when it is there. -/
def allowed (s : State) : Act → Prop
  | .request (.put id _) => ∀ task ∈ s.tasks, task.putting ≠ some id
  | .spoil i _ => ∀ id data, s.tasks[i]? = some ⟨.put id data, .looking⟩ → s.disk.content (pathOf id) = none
  | _ => True

instance (s : State) : DecidablePred (allowed s)
  | .request (.put id _) => inferInstanceAs (Decidable (∀ task ∈ s.tasks, task.putting ≠ some id))
  | .spoil i _ => decidable_of_iff (∀ task ∈ s.tasks[i]?, task.phase = .looking → ∀ id ∈ task.putting,
      s.disk.content (pathOf id) = none) <| by
    constructor
    · intro h id data htask
      exact h _ htask rfl id rfl
    · rintro h ⟨r, p⟩ htask rfl id hid
      cases r with
      | put id' data =>
        cases hid
        exact h id data htask
      | _ => cases hid
  | .request (.get _) | .request (.getRange _ _ _) | .request (.delete _) | .request
    (.stat _) | .advance _ _ | .crash =>
    .isTrue trivial

def Reaches : State → State → Prop := Steps.Reaches step allowed

end FsObjectStore

end Dcfs
