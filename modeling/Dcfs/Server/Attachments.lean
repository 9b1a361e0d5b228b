import Dcfs.Library.Outcome
import Dcfs.Server.Environment
import Dcfs.Server.Request
import Dcfs.Server.Sample
import Dcfs.Server.Versions

namespace Dcfs

open Crypto Environment Machine Outcomes Request Text

variable {std : Std} {env : String → Variable} {config : Environment.Config} {server : Config} {max : ℕ}

def PutsAtMost (max : ℕ) : Call → Prop
  | .put _ data _ => data.length ≤ max
  | _ => True

theorem parseU64_lt {var : String} {raw : Chars} {n : ℕ} (h : parseU64 std var raw = .ok n) : n < 2 ^ 64 := by
  unfold parseU64 at h
  split at h
  · rename_i hparse
    cases h
    exact Text.parseUnsigned_lt (by norm_num) hparse
  · cases h

theorem maxAttachmentBytesVar_ok {chunkSize : ℕ}
    (h : maxAttachmentBytesVar std env chunkSize = .ok (some max)) :
    max < 2 ^ 64 ∧ addU64 chunkSize maxCiphertextOverhead ≤ max := by
  obtain ⟨raw, -, h⟩ := ok_of_bind h
  cases raw with
  | none => cases h
  | some raw =>
    obtain ⟨n, hn, h⟩ := ok_of_bind h
    dsimp only at h
    split_ifs at h with hover
    · cases h
    · cases h
      exact ⟨parseU64_lt hn, Nat.le_of_not_lt hover⟩

theorem chunkSizeVar_pos {n : ℕ} (h : chunkSizeVar std env = .ok n) : 0 < n := by
  obtain ⟨raw, -, h⟩ := ok_of_bind h
  cases raw with
  | none =>
    cases h
    decide
  | some raw =>
    obtain ⟨n, -, h⟩ := ok_of_bind h
    split_ifs at h with hzero
    · cases h
    · cases h
      omega

theorem fromEnv_sizes (h : Config.fromEnv std env = .ok config) (hmax : config.maxAttachmentBytes = some max) :
    0 < config.chunkSize ∧ max < 2 ^ 64 ∧ addU64 config.chunkSize maxCiphertextOverhead ≤ max := by
  refine of_bind h fun _ h => of_bind h fun _ h => of_bind h fun id h => of_bind h fun token h => ?_
  refine of_bind h fun _ h => of_bind h fun _ h => ?_
  dsimp only at h
  by_cases hpair : id.isSome ≠ token.isSome
  · rw [if_pos hpair] at h
    cases h
  rw [if_neg hpair] at h
  refine of_bind h fun _ h => of_bind h fun _ h => of_bind h fun _ h => of_bind h fun _ h => ?_
  refine of_bind h fun _ h => of_bind h fun _ h => of_bind h fun _ h => of_bind h fun _ h => ?_
  obtain ⟨chunkSize, hchunk, h⟩ := ok_of_bind h
  obtain ⟨limit, hlimit, h⟩ := ok_of_bind h
  refine of_bind h fun _ h => ?_
  cases h
  rw [show limit = some max from hmax] at hlimit
  exact ⟨chunkSizeVar_pos hchunk, maxAttachmentBytesVar_ok hlimit⟩

theorem writeChunkPlaintext_confined {plaintext : Bytes}
    (h : plaintext.length + ciphertextOverhead plaintext.length ≤ max) (file : Uuid) :
    Confined (PutsAtMost max) (writeChunkPlaintext server plaintext file) := by
  refine (Confined.ask trivial).bind fun objectId => ?_
  refine (Confined.ask ?_).bind fun stored => (Confined.store stored).bind fun _ => .ok _
  rw [PutsAtMost, (server.cipher.openChunk_sealChunk server.keyId objectId plaintext).2]
  exact h

theorem uploadChunk_confined {body : Bytes} (h : body.length + ciphertextOverhead body.length ≤ max)
    (versionId : Uuid) (req : UploadChunkRequest) :
    Confined (PutsAtMost max) (uploadChunk server versionId req body) := by
  refine (Confined.ask trivial).bind fun answer => (Confined.repo answer).bind fun version => ?_
  refine .check (.check (.check ((writeChunkPlaintext_confined h _).bind fun _ => .check ?_)))
  exact (Confined.ask trivial).bind fun attached => (Confined.repo attached).bind fun _ => .ok _

theorem ciphertextOverhead_mono {n m : ℕ} (h : n ≤ m) : n + ciphertextOverhead n ≤ m + ciphertextOverhead m := by
  simp only [ciphertextOverhead, segmentCount, segmentSize, headerLen, tagLen]
  omega

theorem length_of_puts {plaintext : Bytes} {file : Uuid}
    (h : Confined (PutsAtMost max) (writeChunkPlaintext server plaintext file)) :
    plaintext.length + ciphertextOverhead plaintext.length ≤ max := by
  have hput := (h.2 0).1
  rwa [PutsAtMost, (server.cipher.openChunk_sealChunk server.keyId 0 plaintext).2] at hput

theorem attachments_fit_iff (h : Config.fromEnv std env = .ok config)
    (hmax : config.maxAttachmentBytes = some max) :
    ((∀ (server : Config) (plaintext : Bytes), plaintext.length ≤ config.chunkSize →
        (∀ file, Confined (PutsAtMost max) (writeChunkPlaintext server plaintext file))
          ∧ ∀ versionId req, Confined (PutsAtMost max) (uploadChunk server versionId req plaintext))
      ∧ config.chunkSize + maxCiphertextOverhead < 2 ^ 64)
    ↔ config.chunkSize + headerLen + divCeil config.chunkSize segmentSize * tagLen ≤ max := by
  obtain ⟨hpos, hlt, -⟩ := fromEnv_sizes h hmax
  have hfull : config.chunkSize + headerLen + divCeil config.chunkSize segmentSize * tagLen
      = config.chunkSize + ciphertextOverhead config.chunkSize := by
    simp only [ciphertextOverhead, segmentCount, divCeil, segmentSize, headerLen, tagLen]
    omega
  rw [hfull]
  constructor
  · rintro ⟨hall, -⟩
    have hput := (hall (sample .memory) (List.replicate config.chunkSize 0) (List.length_replicate ..).le).1 0
    simpa using length_of_puts hput
  · intro hfits
    constructor
    · intro server plaintext hlen
      have hshort := (ciphertextOverhead_mono hlen).trans hfits
      exact ⟨writeChunkPlaintext_confined hshort, uploadChunk_confined hshort⟩
    · simp only [maxCiphertextOverhead, ciphertextOverhead, segmentCount, segmentSize, headerLen, tagLen] at hfits ⊢
      omega

def sizesOnly (chunkSize maxAttachmentBytes : String) : String → Variable
  | "CHUNK_SIZE" => .set chunkSize.toList
  | "MAX_ATTACHMENT_BYTES" => .set maxAttachmentBytes.toList
  | _ => .unset

def plainStd : Std := ⟨String.ofList, fun _ => .error "invalid socket address syntax"⟩

theorem attachments_fit_default :
    ∃ config, Config.fromEnv plainStd (sizesOnly "16777216" "20971520") = .ok config
      ∧ config.chunkSize = 16777216 ∧ ∀ (server : Config) (plaintext : Bytes), plaintext.length ≤ 16777216 →
        ∀ file, Confined (PutsAtMost 20971520) (writeChunkPlaintext server plaintext file) := by
  obtain ⟨config, h, hchunk, hmax⟩ : ∃ config, Config.fromEnv plainStd (sizesOnly "16777216" "20971520") = .ok config
      ∧ config.chunkSize = 16777216 ∧ config.maxAttachmentBytes = some 20971520 := ⟨_, rfl, rfl, rfl⟩
  have hfits := (attachments_fit_iff h hmax).mpr (by rw [hchunk]; decide)
  exact ⟨config, h, hchunk, fun server plaintext hlen => (hfits.1 server plaintext (hlen.trans_eq hchunk.symm)).1⟩

theorem attachments_outgrow :
    (∃ config, Config.fromEnv plainStd (sizesOnly "16777217" "16778249") = .ok config
      ∧ config.chunkSize = 16777217 ∧ config.maxAttachmentBytes = some 16778249
      ∧ ¬ Confined (PutsAtMost 16778249)
        (writeChunkPlaintext (sample .memory) (List.replicate 16777217 0) 0))
    ∧ ∃ config, Config.fromEnv plainStd (sizesOnly "18446744073709551615" "2000") = .ok config
      ∧ config.chunkSize = 2 ^ 64 - 1 ∧ ¬ config.chunkSize + maxCiphertextOverhead < 2 ^ 64 := by
  -- One byte more than 64 segments hold takes a tag more; and the sum of the test can wrap.
  refine ⟨⟨_, rfl, rfl, rfl, fun hputs => ?_⟩, _, rfl, rfl, by decide⟩
  have hlen := length_of_puts hputs
  rw [List.length_replicate] at hlen
  exact absurd hlen (by decide)

end Dcfs
