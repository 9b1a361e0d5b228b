import Dcfs.Library.Text
import Dcfs.Metadata.Records

/-! Sealing a chunk as independently authenticated segments, and opening it whole or in part. -/

namespace Dcfs.Crypto

open Text

/-- XChaCha20-Poly1305 under the server's key, and BLAKE3. -/
structure Cipher where
  encrypt : Bytes → Bytes → Bytes → Bytes
  decrypt : Bytes → Bytes → Bytes → Option Bytes
  blake3 : Bytes → Bytes
  decrypt_encrypt : ∀ nonce aad msg, decrypt nonce aad (encrypt nonce aad msg) = some msg
  encrypt_length : ∀ nonce aad msg, (encrypt nonce aad msg).length = msg.length + 16

inductive CryptoError
  | decryptionFailed
  | integrityCheckFailed (expected actual : String)

structure EncryptedChunk where
  keyId : Bytes
  objectId : Uuid
  plaintextHash : String
  ciphertextHash : String
  ciphertext : Bytes

def segmentSize : ℕ := 256 * 1024
def magic : Bytes := [0x44, 0x46, 0x53, 0x32]
def headerLen : ℕ := 8
def tagLen : ℕ := 16
def noncePrefixLen : ℕ := 19

def segmentCount (plaintextLen : ℕ) : ℕ := max ((plaintextLen + segmentSize - 1) / segmentSize) 1

def ciphertextOverhead (plaintextLen : ℕ) : ℕ := headerLen + segmentCount plaintextLen * tagLen

def segmentSpan (plaintextLen index : ℕ) : ℕ × ℕ :=
  let start := headerLen + index * (segmentSize + tagLen)
  let plain := min segmentSize (plaintextLen - index * segmentSize)
  (start, start + plain + tagLen)

structure ChunkRange where
  objectId : Uuid
  plaintextLen : ℕ
  fromByte : ℕ
  toByte : ℕ

def ChunkRange.toFetch (range : ChunkRange) : ℕ × ℕ × ℕ :=
  let lastIndex := segmentCount range.plaintextLen - 1
  let first := min (range.fromByte / segmentSize) lastIndex
  let last := min ((range.toByte - 1) / segmentSize) lastIndex
  ((segmentSpan range.plaintextLen first).1, (segmentSpan range.plaintextLen last).2, first)

def leBytes : ℕ → ℕ → Bytes
  | 0, _ => []
  | width + 1, n => UInt8.ofNat (n % 256) :: leBytes width (n / 256)

def uuidBytes (id : Uuid) : Bytes := (leBytes 16 id).reverse

def toHex (bytes : Bytes) : String :=
  String.ofList (bytes.flatMap (fun b => [hexDigit (b.toNat / 16), hexDigit (b.toNat % 16)]))

namespace Cipher

variable (cipher : Cipher)

def hashData (data : Bytes) : String := toHex (cipher.blake3 data)

def nonceFor (keyId : Bytes) (objectId : Uuid) (index : ℕ) (isLast : Bool) : Bytes :=
  (cipher.blake3 (uuidBytes objectId ++ keyId)).take noncePrefixLen ++ leBytes 4 index
    ++ [if isLast then 1 else 0]

def aadOf (keyId : Bytes) (objectId : Uuid) : Bytes := uuidBytes objectId ++ keyId

def openSegment (keyId : Bytes) (objectId : Uuid) (lastIndex index : ℕ) (sealed : Bytes) :
    Except CryptoError Bytes :=
  match cipher.decrypt (cipher.nonceFor keyId objectId index (index == lastIndex))
      (aadOf keyId objectId) sealed with
  | some opened => .ok opened
  | none => .error .decryptionFailed

def openSegments (keyId : Bytes) (range : ChunkRange) : ℕ → ℕ → Bytes → Except CryptoError Bytes
  -- The loop of `open_range`. Every segment is at least a tag long, so the fetched length bounds it.
  | 0, _, _ => .ok []
  | fuel + 1, index, fetched =>
    if fetched.isEmpty then .ok []
    else
      let span := segmentSpan range.plaintextLen index
      let len := span.2 - span.1
      if fetched.length < len then .error .decryptionFailed
      else do
        let opened ← cipher.openSegment keyId range.objectId (segmentCount range.plaintextLen - 1) index
          (fetched.take len)
        let rest ← openSegments keyId range fuel (index + 1) (fetched.drop len)
        pure (opened ++ rest)

def openRange (keyId : Bytes) (range : ChunkRange) (fetched : Bytes) (firstIndex : ℕ) :
    Except CryptoError Bytes := do
  let plaintext ← cipher.openSegments keyId range fetched.length firstIndex fetched
  let skip := range.fromByte - firstIndex * segmentSize
  let want := range.toByte - range.fromByte
  if plaintext.length < skip + want then .error .decryptionFailed
  else pure ((plaintext.drop skip).take want)

def sealSegment (keyId : Bytes) (objectId : Uuid) (plaintext : Bytes) (index : ℕ) : Bytes :=
  cipher.encrypt (cipher.nonceFor keyId objectId index (index == segmentCount plaintext.length - 1))
    (aadOf keyId objectId) ((plaintext.drop (index * segmentSize)).take segmentSize)

def header : Bytes := magic ++ leBytes 4 segmentSize

def sealedBytes (keyId : Bytes) (objectId : Uuid) (plaintext : Bytes) : Bytes :=
  header ++ (List.range (segmentCount plaintext.length)).flatMap
    (cipher.sealSegment keyId objectId plaintext)

def sealChunk (keyId : Bytes) (objectId : Uuid) (plaintext : Bytes) : EncryptedChunk where
  keyId := keyId
  objectId := objectId
  plaintextHash := cipher.hashData plaintext
  ciphertextHash := cipher.hashData (cipher.sealedBytes keyId objectId plaintext)
  ciphertext := cipher.sealedBytes keyId objectId plaintext

def openSegmented (encrypted : EncryptedChunk) : Except CryptoError Bytes :=
  if encrypted.ciphertext.length < headerLen then .error .decryptionFailed
  else if (encrypted.ciphertext.drop 4).take 4 ≠ leBytes 4 segmentSize then .error .decryptionFailed
  else do
    let body := encrypted.ciphertext.drop headerLen
    let segments := max ((body.length + (segmentSize + tagLen) - 1) / (segmentSize + tagLen)) 1
    let opened ← (List.range segments).mapM (fun index =>
      cipher.openSegment encrypted.keyId encrypted.objectId (segments - 1) index
        ((body.drop (index * (segmentSize + tagLen))).take (segmentSize + tagLen)))
    pure opened.flatten

/-- Objects from before the segmented layout: one message, its nonce in front. -/
def openSingle (encrypted : EncryptedChunk) : Except CryptoError Bytes :=
  if encrypted.ciphertext.length < 24 then .error .decryptionFailed
  else match cipher.decrypt (encrypted.ciphertext.take 24) (aadOf encrypted.keyId encrypted.objectId)
      (encrypted.ciphertext.drop 24) with
  | some opened => .ok opened
  | none => .error .decryptionFailed

def openChunk (encrypted : EncryptedChunk) : Except CryptoError Bytes :=
  let actualHash := cipher.hashData encrypted.ciphertext
  if actualHash ≠ encrypted.ciphertextHash then
    .error (.integrityCheckFailed encrypted.ciphertextHash actualHash)
  else do
    let plaintext ← if magic.isPrefixOf encrypted.ciphertext then cipher.openSegmented encrypted
      else cipher.openSingle encrypted
    let actualPlaintextHash := cipher.hashData plaintext
    if actualPlaintextHash ≠ encrypted.plaintextHash then
      .error (.integrityCheckFailed encrypted.plaintextHash actualPlaintextHash)
    else pure plaintext

end Cipher

end Dcfs.Crypto
