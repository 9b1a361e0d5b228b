import Dcfs.Discord.Store
import Dcfs.Library.Text
import Dcfs.Objects.Ranges

namespace Dcfs.Discord

open Effects Machine

structure DownloadAnswer where
  status : ℕ
  text : String
  body : Except String Bytes

/-- `header` has the first and the last byte that the `range` header names. -/
inductive ReadCall
  | getObjectLocator (id : Uuid)
  | touchObjectUrl (id : Uuid) (url : Text)
  | getMessage (webhookId messageId : Text)
  | download (url : Text) (header : Option (ℕ × ℕ))
  | utcNow

abbrev ReadCall.Reply : ReadCall → Type
  | .getObjectLocator _ => Answer ObjectLocatorRecord
  | .touchObjectUrl _ _ => Answer Unit
  | .getMessage _ _ => Except String HttpAnswer
  | .download _ _ => Except String DownloadAnswer
  | .utcNow => ℤ

abbrev Reading : Interface := ⟨ReadCall, ReadCall.Reply⟩

-- `bytes=offset-last`, the last byte wrapping.
def rangeHeader (offset len : ℕ) : ℕ × ℕ := (offset, asU64 ((addU64 offset len : ℤ) - 1))

namespace DiscordClient

variable (client : DiscordClient)

def cutAnswer (range : Option (ℕ × ℕ)) (answer : DownloadAnswer) : Except (Fault DiscordError) Bytes :=
  -- A 200 to a request for a range has the whole object.
  match answer.body, range with
  | .error detail, _ => .error (.error (.http detail))
  | .ok bytes, some (offset, len) => if answer.status = 206 then .ok bytes else sliceRange bytes offset len
  | .ok bytes, none => .ok bytes

def downloadRound (url : Text) (range : Option (ℕ × ℕ))
    (again : Option (Program Reading (Except (Fault DiscordError) Bytes))) :
    Program Reading (Except (Fault DiscordError) Bytes) := do
  match ← Program.ask (I := Reading) (.download url (range.map fun (offset, len) => rangeHeader offset len)) with
  | .error detail => again.getD (pure (.error (.error (.http detail))))
  | .ok answer =>
    if answer.status = 429 then again.getD (pure (.error (.error (.maxRetriesExceeded client.maxAttempts))))
    else if isSuccess answer.status then pure (cutAnswer range answer)
    else if 500 ≤ answer.status then again.getD (pure (.error (.error (.api answer.status answer.text))))
    else pure (.error (.error (.api answer.status answer.text)))

def downloadRounds (url : Text) (range : Option (ℕ × ℕ)) : ℕ → Program Reading (Except (Fault DiscordError) Bytes)
  | 0 => client.downloadRound url range none
  | left + 1 => client.downloadRound url range (some (downloadRounds url range left))

def downloadAttachmentRange (url : Text) (range : Option (ℕ × ℕ)) :
    Program Reading (Except (Fault DiscordError) Bytes) :=
  client.downloadRounds url range client.maxAttempts

def fetchRound (messageId : Text) (again : Option (Program Reading (Except DiscordError WebhookMessage))) :
    Program Reading (Except DiscordError WebhookMessage) := do
  match ← Program.ask (I := Reading) (.getMessage client.webhookId messageId) with
  | .error detail => again.getD (pure (.error (.http detail)))
  | .ok answer =>
    if answer.status = 429 then again.getD (pure (.error (.maxRetriesExceeded client.maxAttempts)))
    else if answer.status = 404 then pure (.error (.api 404 "message not found"))
    else if isSuccess answer.status then
      match answer.json with
      | .ok message => pure (.ok message)
      | .error detail => pure (.error (.http detail))
    else if 500 ≤ answer.status then again.getD (pure (.error (.api answer.status answer.text)))
    else pure (.error (.api answer.status answer.text))

def fetchRounds (messageId : Text) : ℕ → Program Reading (Except DiscordError WebhookMessage)
  | 0 => client.fetchRound messageId none
  | left + 1 => client.fetchRound messageId (some (fetchRounds messageId left))

def fetchMessage (messageId : Text) : Program Reading (Except DiscordError WebhookMessage) :=
  client.fetchRounds messageId client.maxAttempts

end DiscordClient

def fromTimestamp (seconds : ℤ) : Option ℤ :=
  -- `DateTime::from_timestamp` of whole seconds: the years from -262143 to 262142.
  if -8334601228800 ≤ seconds ∧ seconds ≤ 8210266876799 then some seconds else none

def urlExpiry (url : Text) : Option ℤ := do
  let (_, query) ← Text.splitOnce '?' url
  let raw ← (Text.split '&' query).findSome? fun pair => if "ex=".toList <+: pair then some (pair.drop 3) else none
  let seconds ← Text.parseHexI64 raw
  fromTimestamp seconds

abbrev ReadOp (α : Type) := ExceptT (Fault ObjectStoreError) (Program Reading) α

namespace DiscordObjectStore

variable (store : DiscordObjectStore)

def askRead (c : ReadCall) : ReadOp c.Reply := ExceptT.lift (Program.ask (I := Reading) c)

def findLocator (id : Uuid) : ReadOp DiscordLocator := do
  match Locators.found id (← askRead (.getObjectLocator id)) with
  | .ok (some l) => pure l
  | .ok none => throw (.error (.notFound id))
  | .error e => throw (.error e)

def refreshUrl (l : DiscordLocator) : ReadOp Text := do
  match ← ExceptT.lift ((store.clientFor l).fetchMessage l.messageId) with
  | .error e => throw (.error (mapErr e l.objectId))
  | .ok message =>
    match message.attachments.find? (fun a => a.id == l.attachmentId) with
    | none => throw (.error (.notFound l.objectId))
    | some attachment =>
      match ← askRead (.touchObjectUrl l.objectId attachment.url) with
      | .ok () => pure attachment.url
      | .error e => throw (.error (.backend e.text))

def freshUrl (l : DiscordLocator) : ReadOp Text :=
  match urlExpiry l.url with
  | none => pure l.url
  | some expiry => do
    let now ← askRead .utcNow
    if expiry * 1000000000 ≤ now + 60 * 1000000000 then store.refreshUrl l else pure l.url

def fetch (id : Uuid) (range : Option (ℕ × ℕ)) : ReadOp Bytes := do
  -- What both reads do: after any error the link is fetched anew and tried once more.
  let l ← findLocator id
  let url ← store.freshUrl l
  match ← ExceptT.lift ((store.clientFor l).downloadAttachmentRange url range) with
  | .ok bytes => pure bytes
  | .error .panicked => throw .panicked
  | .error (.error _) =>
    let fresh ← store.refreshUrl l
    match ← ExceptT.lift ((store.clientFor l).downloadAttachmentRange fresh range) with
    | .ok bytes => pure bytes
    | .error .panicked => throw .panicked
    | .error (.error e) => throw (.error (mapErr e id))

def get (id : Uuid) : ReadOp Bytes := store.fetch id none

def getRange (id : Uuid) (offset len : ℕ) : ReadOp Bytes := store.fetch id (some (offset, len))

end DiscordObjectStore

end Dcfs.Discord
