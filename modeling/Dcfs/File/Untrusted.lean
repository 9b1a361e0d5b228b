import Dcfs.Crypto.Authentic
import Dcfs.Server.Data
import Dcfs.Server.Sample

/-! Reading a chunk back from a store that may answer anything it has ever seen, in any shape. -/

namespace Dcfs

open Blocks Crypto Effects Outcomes Request

variable {cfg : Config}

/-- What the store answers holds no forged message. -/
def Answered (vault : Vault cfg.cipher) : (c : Call) → c.Reply → Prop
  | .query (.get o), .ok answer => vault.Unforged cfg.keyId o answer
  | .query (.getRange o _ _), .ok answer => vault.Unforged cfg.keyId o answer
  | _, _ => True

/-- A store that keeps nothing and may fail, cut, extend, splice and reorder. -/
def untrustedStore (vault : Vault cfg.cipher) : Rules Api Unit where
  admits _ _ := True
  outcome c _ r _ := Answered vault c r

/-- The row tells the truth about the object it names. -/
structure Honest (vault : Vault cfg.cipher) (chunk : FileChunkRecord) (plaintext : Bytes) : Prop where
  object : (vault.objects cfg.keyId chunk.objectId).map Layout.plaintext = some plaintext
  size : chunk.plaintextSize = plaintext.length
  hash : chunk.plaintextHash = cfg.cipher.hashData plaintext

/-- No segment of the plaintext hashes to what all of it does, unless it is all of it. -/
def Distinguished (cipher : Cipher) (plaintext : Bytes) : Prop :=
  ∀ i < segmentCount plaintext.length,
    cipher.hashData (Blocks.slice plaintext segmentSize i) = cipher.hashData plaintext →
    Blocks.slice plaintext segmentSize i = plaintext

def window (plaintext : Bytes) (start stop : ℕ) : Bytes :=
  resize ((plaintext.drop start).take (stop - start)) (stop - start)

variable {vault : Vault cfg.cipher} {chunk : FileChunkRecord} {plaintext : Bytes}

def OrFails (vault : Vault cfg.cipher) (read : Request Bytes) (bytes : Bytes) : Prop :=
  read.run.Meets (untrustedStore vault) (fun result _ => ∀ answer, result = .ok answer → answer = bytes) ()

theorem window_of_readable {start stop : ℕ} (h : start < min stop plaintext.length) :
    resize ((plaintext.drop start).take (min stop plaintext.length - start)) (stop - start)
      = window plaintext start stop := by
  have htake : (plaintext.drop start).take (min stop plaintext.length - start)
      = (plaintext.drop start).take (stop - start) := by
    rw [List.take_eq_take_iff, List.length_drop]
    omega
  rw [htake, window]

theorem window_beyond {start stop : ℕ} (h : min stop plaintext.length ≤ start) :
    List.replicate (stop - start) 0 = window plaintext start stop := by
  rcases Nat.lt_or_ge start plaintext.length with hlen | hlen
  · have hstop : stop - start = 0 := by omega
    rw [window, hstop]
    rfl
  · rw [window, List.drop_eq_nil_of_le hlen, List.take_nil, resize, List.take_nil, List.nil_append]
    rfl

namespace OrFails

variable {read : Request Bytes} {bytes : Bytes}

theorem ok : OrFails vault (pure bytes) bytes := by
  rintro _ ⟨⟩
  rfl

theorem error {e : AppError} : OrFails vault (throw e) bytes := nofun

theorem bind {middle : Bytes} {next : Bytes → Request Bytes} (h : OrFails vault read middle)
    (hnext : OrFails vault (next middle) bytes) : OrFails vault (read >>= next) bytes := by
  rw [OrFails, ExceptT.run_bind]
  refine Program.Meets.bind (Program.Meets.mono h fun result _ hresult => ?_)
  cases result with
  | ok answer =>
    rw [hresult answer rfl]
    exact hnext
  | error e => exact nofun

theorem get {o : Uuid} {next : Bytes → Request Bytes}
    (h : ∀ answer, vault.Unforged cfg.keyId o answer → OrFails vault (next answer) bytes) :
    OrFails vault (do next (← store (← ask (.query (.get o))))) bytes := by
  refine ⟨trivial, fun reply _ hreply => ?_⟩
  cases reply with
  | ok answer => exact h answer hreply
  | error e => exact nofun

theorem getRange {o : Uuid} {offset len : ℕ} {next : Bytes → Request Bytes}
    (h : ∀ answer, vault.Unforged cfg.keyId o answer → OrFails vault (next answer) bytes) :
    OrFails vault (do next (← store (← ask (.query (.getRange o offset len))))) bytes := by
  refine ⟨trivial, fun reply _ hreply => ?_⟩
  cases reply with
  | ok answer => exact h answer hreply
  | error e => exact nofun

end OrFails

theorem readChunkPlaintext_orFails (hchunk : Honest vault chunk plaintext)
    (hhash : Distinguished cfg.cipher plaintext) : OrFails vault (readChunkPlaintext cfg chunk) plaintext := by
  obtain ⟨layout, hobject, rfl⟩ := Option.map_eq_some_iff.mp hchunk.object
  refine .get fun answer hanswer => ?_
  split
  · rename_i opened hopened
    rw [hchunk.hash] at hopened
    rw [Vault.openChunk_own hobject hanswer hhash hopened]
    exact .ok
  · exact .error

theorem first_le (range : ChunkRange) : range.toFetch.2.2 * segmentSize ≤ range.fromByte :=
  (Nat.mul_le_mul_right _ (Nat.min_le_left _ _)).trans (Nat.div_mul_le_self _ _)

theorem openRange_honest {layout : Layout} {o : Uuid} (hobject : vault.objects cfg.keyId o = some layout)
    {range : ChunkRange} (ho : range.objectId = o) (hl : range.plaintextLen = layout.plaintext.length)
    (hwant : range.fromByte < range.toByte) {answer opened : Bytes} (hanswer : vault.Unforged cfg.keyId o answer)
    (h : cfg.cipher.openRange cfg.keyId range answer range.toFetch.2.2 = .ok opened) :
    opened = (layout.plaintext.drop range.fromByte).take (range.toByte - range.fromByte) := by
  cases layout with
  | segmented plaintext => exact Vault.openRange_own hobject ho hl (first_le range) hanswer h
  | single nonce plaintext => exact absurd h (Vault.openRange_single hobject ho hwant hanswer)

theorem readChunkSlice_orFails (hchunk : Honest vault chunk plaintext)
    (hhash : Distinguished cfg.cipher plaintext) (start stop : ℕ) :
    OrFails vault (readChunkSlice cfg chunk start stop) (window plaintext start stop) := by
  have hlen : chunk.plaintextSize.toNat = plaintext.length := by
    rw [hchunk.size, Int.toNat_natCast]
  unfold readChunkSlice
  dsimp only
  rw [hlen]
  split_ifs with hreadable
  · rw [← window_beyond hreadable]
    exact .ok
  · rw [Nat.not_le] at hreadable
    refine .getRange fun answer hanswer => ?_
    split
    · rename_i opened hopened
      obtain ⟨layout, hobject, rfl⟩ := Option.map_eq_some_iff.mp hchunk.object
      rw [openRange_honest hobject rfl rfl hreadable hanswer hopened, window_of_readable hreadable]
      exact .ok
    · refine .bind (readChunkPlaintext_orFails hchunk hhash) ?_
      rw [Nat.min_eq_left (Nat.min_le_right _ _), window_of_readable hreadable]
      exact .ok

def markedCipher (hash : Bytes → Bytes) (marked : List (Bytes × Bytes × Bytes)) : Cipher where
  encrypt nonce aad msg := msg ++ List.replicate 16 (if (nonce, aad, msg) ∈ marked then 201 else 200)
  decrypt nonce aad sealed :=
    let msg := sealed.take (sealed.length - 16)
    if sealed = msg ++ List.replicate 16 (if (nonce, aad, msg) ∈ marked then 201 else 200) then some msg else none
  blake3 := hash
  decrypt_encrypt nonce aad msg := by simp
  encrypt_length nonce aad msg := by simp

theorem marked_of_part {hash : Bytes → Bytes} {marked : List (Bytes × Bytes × Bytes)}
    {nonce aad answer part opened : Bytes} (hanswer : 200 ∉ answer) (hpart : part <:+: answer)
    (h : (markedCipher hash marked).decrypt nonce aad part = some opened) :
    (nonce, aad, opened) ∈ marked ∧ part = (markedCipher hash marked).encrypt nonce aad opened := by
  simp only [markedCipher, Option.ite_none_right_eq_some] at h
  obtain ⟨hsealed, hopened⟩ := h
  cases hopened
  refine ⟨?_, hsealed⟩
  by_contra hother
  rw [if_neg hother] at hsealed
  refine hanswer (hpart.subset ?_)
  rw [hsealed]
  exact List.mem_append_right _ (List.mem_replicate.mpr ⟨by decide, rfl⟩)

theorem unforged_of_marked {hash : Bytes → Bytes} {marked : List (Bytes × Bytes × Bytes)}
    {vault : Vault (markedCipher hash marked)} {k answer : Bytes} {o : Uuid}
    (hmarked : ∀ m ∈ marked, vault.Sealed m.1 m.2.1 m.2.2) (hanswer : 200 ∉ answer) :
    vault.Unforged k o answer := by
  intro nonce part opened _ hpart hopened
  obtain ⟨hmark, hsealed⟩ := marked_of_part hanswer hpart hopened
  exact ⟨opened, hmarked _ hmark, hsealed⟩

def lengthHash (data : Bytes) : Bytes := leBytes 19 data.length

def markedServer (marked : List (Bytes × Bytes × Bytes)) : Config :=
  { sample .memory with cipher := markedCipher lengthHash marked }

def recorded (cfg : Config) (o : Uuid) (plaintext : Bytes) : FileChunkRecord :=
  ⟨2, 0, 0, plaintext.length, cfg.cipher.hashData plaintext, o⟩

theorem honest_only {o : Uuid} {ho : o < 256 ^ 16} {hlen : segmentCount plaintext.length ≤ 256 ^ 4} :
    Honest (.only cfg.cipher cfg.keyId o plaintext ho hlen) (recorded cfg o plaintext) plaintext where
  object := by simp [Vault.only, recorded, Layout.plaintext]
  size := rfl
  hash := rfl

def twoMarks : List (Bytes × Bytes × Bytes) :=
  (List.range 2).map fun i =>
    ((markedCipher lengthHash []).nonceFor [] 1 i (i == 1), Cipher.aadOf [] 1, Blocks.slice twoSegments segmentSize i)

def twoServer : Config := markedServer twoMarks

def twoVault : Vault twoServer.cipher :=
  .only _ [] 1 twoSegments (by decide) (by rw [twoSegments_count]; decide)

def twoSealed (i : ℕ) : Bytes := twoServer.cipher.sealSegment [] 1 twoSegments i

def twoSpliced : Bytes := Cipher.header ++ (twoSealed 1 ++ twoSealed 0)

theorem twoSealed_eq {i : ℕ} (hi : i < 2) :
    twoSealed i = Blocks.slice twoSegments segmentSize i ++ List.replicate 16 201 := by
  have hmark : (twoServer.cipher.nonceFor [] 1 i (i == 1), Cipher.aadOf [] 1, Blocks.slice twoSegments segmentSize i)
      ∈ twoMarks := List.mem_map_of_mem (List.mem_range.mpr hi)
  rw [twoSealed, Cipher.sealSegment, twoSegments_count]
  exact congrArg (Blocks.slice twoSegments segmentSize i ++ List.replicate 16 ·) (if_pos hmark)

theorem twoMarks_sealed : ∀ m ∈ twoMarks, twoVault.Sealed m.1 m.2.1 m.2.2 := by
  intro m hm
  obtain ⟨i, hi, rfl⟩ := List.mem_map.mp hm
  have hsealed : twoVault.Sealed _ (Cipher.aadOf [] 1) (Blocks.slice twoSegments segmentSize i) :=
    .segment (i := i) (by simp [twoVault, Vault.only]) (by rw [twoSegments_count]; exact List.mem_range.mp hi)
  rw [twoSegments_count] at hsealed
  exact hsealed

theorem twoSealed_clean {i : ℕ} (hi : i < 2) : 200 ∉ twoSealed i := by
  rw [twoSealed_eq hi]
  interval_cases i
  · simp [twoSegments_first]
  · simp [twoSegments_second]

theorem twoSealed_whole : twoServer.cipher.sealedBytes [] 1 twoSegments
    = Cipher.header ++ (twoSealed 0 ++ twoSealed 1) := by
  rw [Cipher.sealedBytes, twoSegments_count]
  simp [List.range_succ, twoSealed]

theorem twoSegments_distinguished : Distinguished twoServer.cipher twoSegments := by
  intro i hi h
  change toHex (leBytes 19 (Blocks.slice twoSegments segmentSize i).length) = toHex (leBytes 19 twoSegments.length) at h
  rw [twoSegments_count] at hi
  rw [twoSegments_length] at h
  interval_cases i
  · rw [twoSegments_first, List.length_replicate] at h
    exact absurd h (by decide)
  · rw [twoSegments_second, List.length_replicate] at h
    exact absurd h (by decide)

theorem twoSpliced_ne : twoSpliced ≠ twoServer.cipher.sealedBytes [] 1 twoSegments := by
  intro h
  rw [twoSpliced, twoSealed_whole, List.append_cancel_left_eq, twoSealed_eq (by decide), twoSealed_eq (by decide),
    twoSegments_first, twoSegments_second] at h
  have hsize : segmentSize ≠ 0 := by decide
  have hhead := congrArg List.head? h
  simp [List.head?_append, List.head?_replicate, hsize] at hhead

theorem readChunkSlice_orFails_spliced :
    twoVault.Unforged [] 1 (twoServer.cipher.sealedBytes [] 1 twoSegments) ∧ twoVault.Unforged [] 1 twoSpliced
    ∧ twoSpliced ≠ twoServer.cipher.sealedBytes [] 1 twoSegments
    ∧ OrFails twoVault
      (readChunkSlice twoServer (recorded twoServer 1 twoSegments) (segmentSize - 1) (segmentSize + 2)) [5, 9, 9] := by
  have hheader : 200 ∉ Cipher.header := by decide
  have hfirst : 200 ∉ twoSealed 0 := twoSealed_clean (by decide)
  have hsecond : 200 ∉ twoSealed 1 := twoSealed_clean (by decide)
  refine ⟨unforged_of_marked twoMarks_sealed ?_, unforged_of_marked twoMarks_sealed ?_, twoSpliced_ne, ?_⟩
  · rw [twoSealed_whole]
    simp [hheader, hfirst, hsecond]
  · simp [twoSpliced, hheader, hfirst, hsecond]
  · have hchunk : Honest twoVault (recorded twoServer 1 twoSegments) twoSegments := honest_only
    have hread := readChunkSlice_orFails hchunk twoSegments_distinguished (segmentSize - 1) (segmentSize + 2)
    have hwindow : window twoSegments (segmentSize - 1) (segmentSize + 2) = [5, 9, 9] := by
      have hwidth : segmentSize + 2 - (segmentSize - 1) = 3 := by decide
      rw [window, hwidth, twoSegments_across]
      rfl
    rw [hwindow] at hread
    exact hread

end Dcfs
