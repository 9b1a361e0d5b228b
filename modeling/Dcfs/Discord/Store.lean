import Dcfs.Library.Triple
import Dcfs.Server.Gc

namespace Dcfs.Discord

open Effects

abbrev Text := List Char

structure ObjectLocatorRecord where
  objectId : Uuid
  backend : Text
  messageId : Text
  attachmentId : Text
  url : Text
  size : ℤ

structure DiscordLocator where
  objectId : Uuid
  messageId : Text
  attachmentId : Text
  webhookId : Text
  url : Text
  size : ℕ

structure Attachment where
  id : Text
  size : ℕ
  url : Text

structure WebhookMessage where
  id : Text
  attachments : List Attachment

structure HttpAnswer where
  status : ℕ
  text : String
  json : Except String WebhookMessage

inductive RemoteCall
  | getObjectLocator (id : Uuid)
  | putObjectLocator (record : ObjectLocatorRecord)
  | deleteObjectLocator (id : Uuid)
  | postAttachment (webhookId : Text) (filename : Text) (data : Bytes)
  | deleteMessage (webhookId messageId : Text)
  | metadata (c : Call)

abbrev RemoteCall.Reply : RemoteCall → Type
  | .getObjectLocator _ => Answer ObjectLocatorRecord
  | .putObjectLocator _ => Answer Unit
  | .deleteObjectLocator _ => Answer Unit
  | .postAttachment _ _ _ => Except String HttpAnswer
  | .deleteMessage _ _ => Except String HttpAnswer
  | .metadata c => c.Reply

abbrev Remote : Interface := ⟨RemoteCall, RemoteCall.Reply⟩

inductive DiscordError
  | http (detail : String)
  | api (status : ℕ) (message : String)
  | maxRetriesExceeded (maxAttempts : ℕ)

def DiscordError.text : DiscordError → String
  | .http detail => "HTTP error: " ++ detail
  | .api status message => "Discord API error " ++ toString status ++ ": " ++ message
  | .maxRetriesExceeded maxAttempts => "max retries (" ++ toString maxAttempts ++ ") exceeded"

structure DiscordClient where
  webhookId : Text
  maxAttempts : ℕ

def isSuccess (status : ℕ) : Bool := 200 ≤ status && status < 300

namespace DiscordClient

variable (client : DiscordClient)

def deleteRound (messageId : Text) (again : Option (Program Remote (Except DiscordError Unit))) :
    Program Remote (Except DiscordError Unit) := do
  match ← Program.ask (I := Remote) (.deleteMessage client.webhookId messageId) with
  | .error detail => again.getD (pure (.error (.http detail)))
  | .ok answer =>
    if answer.status = 429 then again.getD (pure (.error (.maxRetriesExceeded client.maxAttempts)))
    else if answer.status = 404 then pure (.error (.api 404 "message not found"))
    else if isSuccess answer.status then pure (.ok ())
    else if 500 ≤ answer.status then again.getD (pure (.error (.api answer.status answer.text)))
    else pure (.error (.api answer.status answer.text))

def deleteRounds (messageId : Text) : ℕ → Program Remote (Except DiscordError Unit)
  | 0 => client.deleteRound messageId none
  | left + 1 => client.deleteRound messageId (some (deleteRounds messageId left))

def deleteMessage (messageId : Text) : Program Remote (Except DiscordError Unit) :=
  client.deleteRounds messageId client.maxAttempts

def uploadRound (filename : Text) (data : Bytes)
    (again : Option (Program Remote (Except DiscordError WebhookMessage))) :
    Program Remote (Except DiscordError WebhookMessage) := do
  match ← Program.ask (I := Remote) (.postAttachment client.webhookId filename data) with
  | .error detail => again.getD (pure (.error (.http detail)))
  | .ok answer =>
    if answer.status = 429 then again.getD (pure (.error (.maxRetriesExceeded client.maxAttempts)))
    else if isSuccess answer.status then
      match answer.json with
      | .ok message => pure (.ok message)
      | .error detail => pure (.error (.http detail))
    else if 500 ≤ answer.status then again.getD (pure (.error (.api answer.status answer.text)))
    else pure (.error (.api answer.status answer.text))

def uploadRounds (filename : Text) (data : Bytes) : ℕ → Program Remote (Except DiscordError WebhookMessage)
  | 0 => client.uploadRound filename data none
  | left + 1 => client.uploadRound filename data (some (uploadRounds filename data left))

def uploadAttachment (filename : Text) (data : Bytes) : Program Remote (Except DiscordError WebhookMessage) :=
  client.uploadRounds filename data client.maxAttempts

end DiscordClient

def mapErr (e : DiscordError) (id : Uuid) : ObjectStoreError :=
  match e with
  | .api 404 _ => .notFound id
  | e => .backend e.text

def backendOf (webhookId : Text) : Text :=
  if webhookId = [] then "discord".toList else "discord".toList ++ ':' :: webhookId

def webhookOf (backend : Text) : Text := (backend.dropWhile (· ≠ ':')).drop 1

theorem webhookOf_backendOf (webhookId : Text) : webhookOf (backendOf webhookId) = webhookId := by
  unfold backendOf
  split_ifs with h
  · rw [h]
    rfl
  · rfl

abbrev Op (α : Type) := ExceptT ObjectStoreError (Program Remote) α

namespace Locators

variable {α : Type}

def ask (c : RemoteCall) : Op c.Reply := ExceptT.lift (Program.ask (I := Remote) c)

def put (locator : DiscordLocator) : Op Unit := do
  match ← ask (.putObjectLocator
    { objectId := locator.objectId
      backend := backendOf locator.webhookId
      messageId := locator.messageId
      attachmentId := locator.attachmentId
      url := locator.url
      size := Machine.asI64 locator.size }) with
  | .ok () => pure ()
  | .error e => throw (.backend e.text)

def locator (id : Uuid) (record : ObjectLocatorRecord) : DiscordLocator where
  objectId := id
  messageId := record.messageId
  attachmentId := record.attachmentId
  webhookId := webhookOf record.backend
  url := record.url
  size := record.size.toNat

def found (id : Uuid) : Answer ObjectLocatorRecord → Except ObjectStoreError (Option DiscordLocator)
  | .ok record => .ok (some (locator id record))
  | .error .notFound => .ok none
  | .error e => .error (.backend e.text)

def get (id : Uuid) : Op (Option DiscordLocator) := do
  match found id (← ask (.getObjectLocator id)) with
  | .ok l => pure l
  | .error e => throw e

def remove (id : Uuid) : Op Unit := do
  match ← ask (.deleteObjectLocator id) with
  | .ok () => pure ()
  | .error e => throw (.backend e.text)

end Locators

structure DiscordObjectStore where
  clients : List DiscordClient
  nonempty : clients ≠ []

namespace DiscordObjectStore

variable (store : DiscordObjectStore)

def groupHash (group : Uuid) : ℕ :=
  ((List.range 8).map (fun i => group / 256 ^ (7 - i) % 256 * 256 ^ i)).sum

def clientForGroup (group : Uuid) : DiscordClient :=
  store.clients.getD (groupHash group % store.clients.length) (store.clients.head store.nonempty)

def clientFor (locator : DiscordLocator) : DiscordClient :=
  (store.clients.find? (fun client => client.webhookId == locator.webhookId)).getD
    (store.clients.head store.nonempty)

def locatorOf (id : Uuid) : Op DiscordLocator := do
  match ← Locators.get id with
  | some locator => pure locator
  | none => throw (.notFound id)

def recordUpload (client : DiscordClient) (id : Uuid) : Except DiscordError WebhookMessage → Op Unit
  | .error e => throw (mapErr e id)
  | .ok ⟨_, []⟩ => throw (.backend "no attachment in the response")
  | .ok ⟨messageId, attachment :: _⟩ => Locators.put
      ⟨id, messageId, attachment.id, client.webhookId, attachment.url, attachment.size⟩

def putFor (id : Uuid) (data : Bytes) (group : Uuid) : Op Unit := do
  match ← Locators.get id with
  | some _ => throw (.alreadyExists id)
  | none =>
    let client := store.clientForGroup group
    recordUpload client id (← ExceptT.lift (client.uploadAttachment (toString id ++ ".bin").toList data))

def settleDelete (id : Uuid) : Except DiscordError Unit → Op Unit
  | .ok () => Locators.remove id
  | .error (.api 404 _) => Locators.remove id
  | .error e => throw (mapErr e id)

def delete (id : Uuid) : Op Unit := do
  let locator ← locatorOf id
  if locator.webhookId ≠ [] ∧ ¬ store.clients.any (fun client => client.webhookId == locator.webhookId) then
    throw (.retained id)
  else
    settleDelete id (← ExceptT.lift ((store.clientFor locator).deleteMessage locator.messageId))

def perform : (c : Call) → Program Remote c.Reply
  | .delete id => (store.delete id).run
  | c => Program.ask (I := Remote) (.metadata c)

def collect (retention : ℕ) : Program Remote (Except String GcReport) :=
  (collectOnce retention).run.expand (I := Api) store.perform

end DiscordObjectStore

end Dcfs.Discord
