import Dcfs.Fuse.Client
import Dcfs.Server.Exec

/-! The mount's HTTP client, over a network that may lose a request or its answer. -/

namespace Dcfs.Fuse

open Machine

structure RetryConfig where
  maxAttempts : ℕ

structure Response (α : Type) where
  status : ℕ
  body : Except String α

/-- What becomes of a request on its way to the server and back. -/
inductive Delivery
  | answered
  | bodyLost (detail : String)
  | requestLost (detail : String)
  | responseLost (detail : String)
  | serverError (applied : Bool) (code : Fin 100)

def Delivery.applied : Delivery → Bool
  | .answered => true
  | .bodyLost _ => true
  | .requestLost _ => false
  | .responseLost _ => true
  | .serverError applied _ => applied

def Delivery.reaches : Delivery → Bool
  | .answered => true
  | .bodyLost _ => true
  | _ => false

def nodeToResponse (record : NodeRecord) : NodeResponse where
  id := record.id
  parentId := record.parentId
  name := record.name
  kind := record.kind
  mode := asU32 record.mode
  uid := asU32 record.uid
  gid := asU32 record.gid
  size := asU64 record.size
  atime := record.atime
  mtime := record.mtime
  ctime := record.ctime
  currentVersionId := record.currentVersionId
  generation := asU64 record.generation
  linkTarget := record.linkTarget

/-- The server at the other end, what becomes of each request, and what others do after it. -/
structure Link where
  cfg : Config
  faults : Faults
  deliveries : ℕ → Delivery
  others : ℕ → World → World

structure Wire where
  world : World
  sent : ℕ
  served : List ℕ

namespace Link

variable {α : Type} (link : Link)

def route (status : ℕ) (request : Request α) (w : World) : Response α × World :=
  match exec link.cfg link.faults request w with
  | (.ok a, w) => (⟨status, .ok a⟩, w)
  | (.error e, w) => (⟨e.status, .error e.message⟩, w)

def send (status : ℕ) (request : Request α) (wire : Wire) : Except String (Response α) × Wire :=
  let delivery := link.deliveries wire.sent
  let (response, world) := link.route status request wire.world
  (match delivery with
    | .answered => .ok response
    | .bodyLost detail => .ok { response with body := .error detail }
    | .requestLost detail => .error detail
    | .responseLost detail => .error detail
    | .serverError _ code => .ok ⟨500 + code, .error ""⟩,
    { world := link.others wire.sent (if delivery.applied then world else wire.world)
      sent := wire.sent + 1
      served := if delivery.applied then response.status :: wire.served else wire.served })

end Link

def Response.retriable {α : Type} (response : Response α) : Bool :=
  (500 ≤ response.status && response.status < 600) || response.status == 429

section sending

variable {α : Type}

abbrev Sender (α : Type) := Wire → Except String (Response α) × Wire

def lastTry (send : Sender α) (retried : Bool) (wire : Wire) : Except ClientError (Response α × Bool) × Wire :=
  match send wire with
  | (.ok response, wire) => (.ok (response, retried), wire)
  | (.error e, wire) => (.error (.http e), wire)

def attempts (send : Sender α) : ℕ → Bool → Wire → Except ClientError (Response α × Bool) × Wire
  -- The loop of `send_retrying`, by the number of rounds left.
  | 0, retried, wire => lastTry send retried wire
  | left + 1, retried, wire =>
    match send wire with
    | (.ok response, wire) =>
      if response.retriable then
        if left = 0 then lastTry send retried wire else attempts send left true wire
      else (.ok (response, retried), wire)
    | (.error _, wire) => if left = 0 then lastTry send retried wire else attempts send left true wire

def sendRetrying (retry : RetryConfig) (send : Sender α) (wire : Wire) :
    Except ClientError (Response α × Bool) × Wire :=
  attempts send retry.maxAttempts false wire

end sending

def unexpected (status : ℕ) : ClientError := .http ("HTTP " ++ toString status)

def Response.json {α : Type} (response : Response α) : Except ClientError α :=
  match response.body with
  | .ok a => .ok a
  | .error detail => .error (.http detail)

def postNode (req : CreateNodeRequest) : Request NodeResponse := do pure (nodeToResponse (← Dcfs.createNode req))

def fetchNode (nodeId : Uuid) : Request NodeResponse := do pure (nodeToResponse (← Dcfs.getNode nodeId))

structure HttpClient where
  retry : RetryConfig
  link : Link

namespace HttpClient

variable (client : HttpClient)

def getReport (response : Response NodeResponse) : Except ClientError NodeResponse :=
  if response.status = 200 then response.json
  else if response.status = 401 ∨ response.status = 403 then .error .unauthorized
  else if response.status = 404 then .error .notFound
  else .error (unexpected response.status)

def getNode (nodeId : Uuid) (wire : Wire) : Except ClientError NodeResponse × Wire :=
  match sendRetrying client.retry (client.link.send 200 (fetchNode nodeId)) wire with
  | (.error e, wire) => (.error e, wire)
  | (.ok (response, _), wire) => (getReport response, wire)

/--
How `create_node` reads a response. The server takes the idempotency key as the id, so a replay
that finds a node of that id and name has collided with itself.
-/
def createReport (req : CreateNodeRequest) (response : Response NodeResponse) (retried : Bool) (wire : Wire) :
    Except ClientError NodeResponse × Wire :=
  if response.status = 201 ∨ response.status = 200 then (response.json, wire)
  else if response.status = 401 ∨ response.status = 403 then (.error .unauthorized, wire)
  else if response.status = 409 then
    if retried then
      match client.getNode req.idempotencyKey wire with
      | (.ok node, wire) => (if node.name = req.name then .ok node else .error .alreadyExists, wire)
      | (.error _, wire) => (.error .alreadyExists, wire)
    else (.error .alreadyExists, wire)
  else if response.status = 400 then (.error .invalidName, wire)
  else (.error (unexpected response.status), wire)

def createNode (req : CreateNodeRequest) (wire : Wire) : Except ClientError NodeResponse × Wire :=
  match sendRetrying client.retry (client.link.send 201 (postNode req)) wire with
  | (.error e, wire) => (.error e, wire)
  | (.ok (response, retried), wire) => client.createReport req response retried wire

def deleteReport (status : ℕ) (retried : Bool) : Except ClientError Unit :=
  if status = 204 ∨ status = 200 then .ok ()
  else if status = 401 ∨ status = 403 then .error .unauthorized
  else if status = 404 then if retried then .ok () else .error .notFound
  else if status = 409 then .error .directoryNotEmpty
  else .error (unexpected status)

def deleteNode (nodeId : Uuid) (wire : Wire) : Except ClientError Unit × Wire :=
  match sendRetrying client.retry (client.link.send 204 (Dcfs.deleteNode nodeId)) wire with
  | (.error e, wire) => (.error e, wire)
  | (.ok (response, retried), wire) => (deleteReport response.status retried, wire)

end HttpClient

end Dcfs.Fuse
