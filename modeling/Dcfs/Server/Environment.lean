import Dcfs.Crypto.Chunk
import Dcfs.Library.Machine
import Dcfs.Library.Text

namespace Dcfs.Environment

open Crypto Machine Text

inductive Variable
  | unset | notUnicode
  | set (value : Chars)

inductive IpAddr
  | v4 (octets : Fin 4 → UInt8)
  | v6 (segments : Fin 8 → UInt16)

structure SocketAddr where
  ip : IpAddr
  port : UInt16

def SocketAddr.loopback (port : UInt16) : SocketAddr := ⟨.v4 ![127, 0, 0, 1], port⟩

structure Std where
  debug : Chars → String
  parseAddr : Chars → Except String SocketAddr

inductive ConfigError
  | notUnicode (var : String)
  | invalid (var reason : String)

inductive Failure
  | error (e : ConfigError)
  | panicked

abbrev Load (α : Type) := Except Failure α

def invalid {α : Type} (var reason : String) : Load α := .error (.error (.invalid var reason))

structure Config where
  databaseUrl : Option Chars
  apiToken : Option Chars
  discordWebhookId : Option Chars
  discordWebhookToken : Option Chars
  discordWebhooks : List (Chars × Chars)
  masterKey : Option (List UInt8)
  serverAddr : SocketAddr
  databaseSchema : Chars
  databaseAutoMigrate : Bool
  singleInstance : Bool
  parallelChunkFetches : ℕ
  discordMaxConcurrency : ℕ
  objectStorePath : Option Chars
  chunkSize : ℕ
  maxAttachmentBytes : Option ℕ
  gcRetention : ℕ

def defaultChunkSize : ℕ := 16 * 1024 * 1024

def maxCiphertextOverhead : ℕ := headerLen + 16 * 1024 * 1024 / segmentSize * tagLen

variable (std : Std) (env : String → Variable)

def optionalVar (var : String) : Load (Option Chars) :=
  match env var with
  | .unset => .ok none
  | .notUnicode => .error (.error (.notUnicode var))
  | .set value => .ok (if (trim value).isEmpty then none else some value)

def parseU64 (var : String) (raw : Chars) : Load ℕ :=
  match parseUnsigned (2 ^ 64) raw with
  | .ok n => .ok n
  | .error e => invalid var (std.debug raw ++ ": " ++ e.text)

def positiveVar (var : String) (default : ℕ) : Load ℕ := do
  match ← optionalVar env var with
  | none => pure default
  | some raw =>
    let n ← parseU64 std var raw
    if n = 0 then invalid var "expected at least 1" else pure n

def flagVar (var : String) : Load Bool := do
  match ← optionalVar env var with
  | none => pure false
  | some raw =>
    if raw ∈ ["true".toList, "1".toList, "yes".toList] then pure true
    else if raw ∈ ["false".toList, "0".toList, "no".toList] then pure false
    else invalid var ("expected true or false, got " ++ std.debug raw)

def apiTokenVar : Load (Option Chars) := do
  match ← optionalVar env "API_TOKEN" with
  | some token =>
    if (String.ofList token).utf8ByteSize < 16 then invalid "API_TOKEN" "must be at least 16 characters"
    else pure (some token)
  | none => pure none

def addWebhooks : List (Chars × Chars) → List Chars → Load (List (Chars × Chars))
  | known, [] => .ok known
  | known, entry :: rest =>
    if (trim entry).isEmpty then addWebhooks known rest
    else match splitOnce ':' (trim entry) with
      | none => invalid "DISCORD_WEBHOOKS" "each entry is id:token, separated by commas"
      | some (id, token) =>
        if known.any (fun entry => entry.1 == id) then addWebhooks known rest
        else addWebhooks (known ++ [(id, token)]) rest

def hexDigit? (b : UInt8) : Option ℕ :=
  let n := b.toNat
  if 48 ≤ n ∧ n ≤ 57 then some (n - 48)
  else if 97 ≤ n ∧ n ≤ 102 then some (n - 87)
  else if 65 ≤ n ∧ n ≤ 70 then some (n - 55)
  else none

def hexByte (high low : UInt8) : Option UInt8 :=
  -- `u8::from_str_radix` of two bytes, which takes a sign.
  if high = 43 then (hexDigit? low).map UInt8.ofNat
  else match hexDigit? high, hexDigit? low with
    | some a, some b => some (UInt8.ofNat (16 * a + b))
    | _, _ => none

def isContinuation (b : UInt8) : Bool := 128 ≤ b.toNat && b.toNat < 192

def readKey : List UInt8 → Load (List UInt8)
  | high :: low :: rest =>
    if isContinuation high || rest.head?.any isContinuation then .error .panicked
    else match hexByte high low with
      | none => invalid "MASTER_KEY" "not valid hex"
      | some b => do pure (b :: (← readKey rest))
  | _ => .ok []

def masterKeyVar : Load (Option (List UInt8)) := do
  match ← optionalVar env "MASTER_KEY" with
  | none => pure none
  | some raw =>
    let hex := (trim raw).flatMap String.utf8EncodeChar
    if hex.length ≠ 64 then
      invalid "MASTER_KEY" ("expected 64 hex chars (32 bytes), got " ++ toString hex.length)
    else pure (some (← readKey hex))

def serverAddrVar : Load SocketAddr := do
  match ← optionalVar env "SERVER_ADDR" with
  | none => pure (.loopback 8080)
  | some raw =>
    match std.parseAddr raw with
    | .ok addr => pure addr
    | .error e => invalid "SERVER_ADDR" (std.debug raw ++ ": " ++ e)

def chunkSizeVar : Load ℕ := do
  match ← optionalVar env "CHUNK_SIZE" with
  | none => pure defaultChunkSize
  | some raw =>
    let n ← parseU64 std "CHUNK_SIZE" raw
    if n = 0 then invalid "CHUNK_SIZE" "must be greater than zero" else pure n

def maxAttachmentBytesVar (chunkSize : ℕ) : Load (Option ℕ) := do
  match ← optionalVar env "MAX_ATTACHMENT_BYTES" with
  | none => pure none
  | some raw =>
    let max ← parseU64 std "MAX_ATTACHMENT_BYTES" raw
    let sealed := addU64 chunkSize maxCiphertextOverhead
    if max < sealed then
      invalid "CHUNK_SIZE" ("a " ++ toString chunkSize ++ "-byte chunk seals to " ++ toString sealed
        ++ " bytes, over the MAX_ATTACHMENT_BYTES limit of " ++ toString max ++ "; use at most "
        ++ toString (max - maxCiphertextOverhead))
    else pure (some max)

def gcRetentionVar : Load ℕ := do
  match ← optionalVar env "GC_RETENTION_SECS" with
  | none => pure 3600
  | some raw => parseU64 std "GC_RETENTION_SECS" raw

def Config.fromEnv : Load Config := do
  let databaseUrl ← optionalVar env "DATABASE_URL"
  let apiToken ← apiTokenVar env
  let discordWebhookId ← optionalVar env "DISCORD_WEBHOOK_ID"
  let discordWebhookToken ← optionalVar env "DISCORD_WEBHOOK_TOKEN"
  let first := match discordWebhookId, discordWebhookToken with
    | some id, some token => [(id, token)]
    | _, _ => []
  let discordWebhooks ← addWebhooks first (split ',' ((← optionalVar env "DISCORD_WEBHOOKS").getD []))
  if discordWebhookId.isSome ≠ discordWebhookToken.isSome then
    invalid "DISCORD_WEBHOOK_ID" "set both DISCORD_WEBHOOK_ID and DISCORD_WEBHOOK_TOKEN, or neither"
  let masterKey ← masterKeyVar env
  let serverAddr ← serverAddrVar std env
  let databaseSchema := (← optionalVar env "DATABASE_SCHEMA").getD "public".toList
  let databaseAutoMigrate ← flagVar std env "DATABASE_AUTO_MIGRATE"
  let singleInstance ← flagVar std env "SINGLE_INSTANCE"
  let parallelChunkFetches ← positiveVar std env "PARALLEL_CHUNK_FETCHES" 8
  let discordMaxConcurrency ← positiveVar std env "DISCORD_MAX_CONCURRENCY" 4
  let objectStorePath ← optionalVar env "OBJECT_STORE_PATH"
  let chunkSize ← chunkSizeVar std env
  let maxAttachmentBytes ← maxAttachmentBytesVar std env chunkSize
  let gcRetention ← gcRetentionVar std env
  pure
    { databaseUrl, apiToken, discordWebhookId, discordWebhookToken, discordWebhooks, masterKey, serverAddr,
      databaseSchema, databaseAutoMigrate, singleInstance, parallelChunkFetches, discordMaxConcurrency,
      objectStorePath, chunkSize, maxAttachmentBytes, gcRetention }

end Dcfs.Environment
