import Dcfs.File.Spared
import Dcfs.Server.DavFile

/-! One file, read and written through the byte API and through open files of the WebDAV door. -/

namespace Dcfs

open Effects Machine Tables World Exec Sparse

inductive FileRequest
  | metadata
  | writeBytes (buf : Bytes)
  | writeBuf (buf : List Bytes)
  | readBytes (count : ℕ)
  | seek (target : SeekFrom)
  | flush

inductive DoorCall
  | read (offset size : Option ℕ)
  | write (offset : ℕ) (body : Bytes)
  | commit
  | opened (path : DavPath) (options : OpenOptions)
  | file (i : ℕ) (request : FileRequest)
  | other (op : Operation)

inductive DoorReply
  | failed
  | done
  | bytes (bytes : Bytes)
  | written (count : ℕ)
  | position (pos : ℕ)
  | found (len : ℕ) (isDir : Bool)
  deriving DecidableEq

def FileRequest.serve (cfg : Config) : FileRequest → Dav.FileOp DoorReply
  | .metadata => do
    let found ← Dav.File.metadata
    pure (.found found.len found.isDir)
  | .writeBytes buf => do
    Dav.File.writeBytes cfg buf
    pure .done
  | .writeBuf buf => do
    Dav.File.writeBuf cfg buf
    pure .done
  | .readBytes count => do
    let bytes ← Dav.File.readBytes cfg count
    pure (.bytes bytes)
  | .seek target => do
    let pos ← Dav.File.seek target
    pure (.position pos)
  | .flush => do
    Dav.File.flush cfg
    pure .done

structure Doors where
  world : World
  files : List Dav.File

namespace Doors

variable (cfg : Config) (faults : Faults)

def answer {ε α : Type} (s : Doors) (p : ExceptT ε (Program Api) α) (reply : α → DoorReply) : DoorReply × Doors :=
  match exec cfg faults p s.world with
  | (.ok a, u) => (reply a, { s with world := u })
  | (.error _, u) => (.failed, { s with world := u })

def ask (n : Uuid) (s : Doors) : DoorCall → DoorReply × Doors
  | .read offset size => s.answer cfg faults (readBytes cfg n offset size) fun read => .bytes read.1
  | .write offset body => s.answer cfg faults (writeBytes cfg n offset body) .written
  | .commit => s.answer cfg faults (commitNode cfg n) fun _ => .done
  | .opened path options =>
    match exec cfg faults (Dav.openedFile path options) s.world with
    | (.ok file, u) => (.done, ⟨u, s.files ++ [file]⟩)
    | (.error _, u) => (.failed, { s with world := u })
  | .file i request =>
    match s.files[i]? with
    | none => (.failed, s)
    | some file =>
      match Program.run (handle cfg faults) (request.serve cfg file) s.world with
      | ((.ok reply, file), u) => (reply, ⟨u, s.files.set i file⟩)
      | ((.error _, file), u) => (.failed, ⟨u, s.files.set i file⟩)
  | .other op => (.done, { s with world := s.world.after cfg faults op })

def serve (n : Uuid) (s : Doors) : List DoorCall → List DoorReply × Doors
  | [] => ([], s)
  | call :: rest =>
    let (reply, next) := s.ask cfg faults n call
    let (replies, last) := next.serve n rest
    (reply :: replies, last)

end Doors

structure Desk where
  bytes : Bytes
  cursors : List ℕ

def SeekFrom.target (pos len : ℕ) : SeekFrom → ℕ
  | .start target => target.toNat
  | .current offset => saturatingAddSigned pos offset
  | .fromEnd offset => saturatingAddSigned len offset

namespace Desk

def write (d : Desk) (i pos : ℕ) (buf : Bytes) : DoorReply × Desk :=
  (.done, ⟨overlay d.bytes pos buf, d.cursors.set i (pos + buf.length)⟩)

def use (d : Desk) (i pos : ℕ) : FileRequest → DoorReply × Desk
  | .metadata => (.found d.bytes.length false, d)
  | .writeBytes buf => d.write i pos buf
  | .writeBuf buf => d.write i pos buf.flatten
  | .readBytes count =>
    let bytes := (d.bytes.drop pos).take count
    (.bytes bytes, { d with cursors := d.cursors.set i (pos + bytes.length) })
  | .seek target =>
    let pos := target.target pos d.bytes.length
    (.position pos, { d with cursors := d.cursors.set i pos })
  | .flush => (.done, d)

def ask (d : Desk) : DoorCall → DoorReply × Desk
  | .read offset size => (.bytes ((d.bytes.drop (offset.getD 0)).take (size.getD d.bytes.length)), d)
  | .write offset body => (.written body.length, { d with bytes := overlay d.bytes offset body })
  | .commit => (.done, d)
  | .opened _ _ => (.done, { d with cursors := d.cursors ++ [0] })
  | .file i request =>
    match d.cursors[i]? with
    | none => (.failed, d)
    | some pos => d.use i pos request
  | .other _ => (.done, d)

def serve (d : Desk) : List DoorCall → List DoorReply × Desk
  | [] => ([], d)
  | call :: rest =>
    let (reply, next) := d.ask call
    let (replies, last) := next.serve rest
    (reply :: replies, last)

end Desk

end Dcfs
