import Dcfs.Crypto.Legacy
import Dcfs.File.Untrusted

namespace Dcfs

open Crypto Exec Request

variable {cfg : Config} {faults : Faults} {w : World} {chunk : FileChunkRecord} {nonce plaintext : Bytes}

structure Old (cfg : Config) (w : World) (chunk : FileChunkRecord) (nonce plaintext : Bytes) : Prop where
  nonce_length : nonce.length = 24
  size : chunk.plaintextSize = plaintext.length
  hash : chunk.plaintextHash = cfg.cipher.hashData plaintext
  stored : (w.objects.lookup chunk.objectId).map StoredObject.data
    = some (cfg.cipher.singleBytes cfg.keyId chunk.objectId nonce plaintext)

namespace Old

theorem get (h : Old cfg w chunk nonce plaintext) : answer cfg w (.get chunk.objectId)
    = .ok (cfg.cipher.singleBytes cfg.keyId chunk.objectId nonce plaintext) := by
  obtain ⟨stored, hstored, hdata⟩ := Option.map_eq_some_iff.mp h.stored
  simp only [answer, World.get, hstored, hdata]

theorem getRange (h : Old cfg w chunk nonce plaintext) (offset len : ℕ) :
    answer cfg w (.getRange chunk.objectId offset len)
      = .ok (((cfg.cipher.singleBytes cfg.keyId chunk.objectId nonce plaintext).drop offset).take len) := by
  obtain ⟨stored, hstored, hdata⟩ := Option.map_eq_some_iff.mp h.stored
  simp only [answer, World.getRange, hstored, hdata]

theorem exec_readChunkPlaintext (h : Old cfg w chunk nonce plaintext) (hmagic : ¬ magic <+: nonce) :
    exec cfg faults (readChunkPlaintext cfg chunk) w = (.ok plaintext, w) := by
  rw [readChunkPlaintext, exec_query, h.get, store_ok, pure_bind, h.hash, openChunk_singleBytes h.nonce_length hmagic]
  rfl

end Old

theorem resize_slice {start stop : ℕ} (h : stop ≤ plaintext.length) :
    resize ((plaintext.drop start).take (stop - start)) (stop - start)
      = (plaintext.drop start).take (stop - start) := by
  have hlen : ((plaintext.drop start).take (stop - start)).length = stop - start := by
    rw [List.length_take, List.length_drop]
    omega
  rw [resize, List.take_of_length_le hlen.le, hlen, Nat.sub_self, List.replicate_zero, List.append_nil]

theorem Old.exec_readChunkSlice (h : Old cfg w chunk nonce plaintext)
    (hlone : Lone cfg.cipher cfg.keyId chunk.objectId nonce plaintext
      (cfg.cipher.singleBytes cfg.keyId chunk.objectId nonce plaintext)) (hmagic : ¬ magic <+: nonce)
    {start stop : ℕ} (hstart : start < stop) (hstop : stop ≤ plaintext.length) :
    exec cfg faults (readChunkSlice cfg chunk start stop) w
      = (.ok ((plaintext.drop start).take (stop - start)), w) := by
  have hlen : chunk.plaintextSize.toNat = plaintext.length := by
    rw [h.size, Int.toNat_natCast]
  rw [readChunkSlice, hlen, Nat.min_eq_left hstop, if_neg (not_le.mpr hstart), exec_query, h.getRange, store_ok,
    pure_bind]
  generalize hrange : ChunkRange.mk chunk.objectId plaintext.length start stop = range
  cases hopen : cfg.cipher.openRange cfg.keyId range
      (((cfg.cipher.singleBytes cfg.keyId chunk.objectId nonce plaintext).drop range.toFetch.1).take
        (range.toFetch.2.1 - range.toFetch.1)) range.toFetch.2.2 with
  | ok opened =>
    have hright := hlone.openRange_right (by rw [← hrange]) (by rw [← hrange])
      (by rw [← hrange]; exact hstart) (by rw [← hrange]; exact hstop)
      ((List.take_prefix _ _).isInfix.trans (List.drop_suffix _ _).isInfix) (List.length_take_le _ _) hopen
    rw [hright, ← hrange]
    exact congrArg (fun bytes => (Except.ok bytes, w)) (resize_slice hstop)
  | error e =>
    dsimp only
    rw [exec_bind_ok (h.exec_readChunkPlaintext hmagic), Nat.min_eq_left hstop]
    exact congrArg (fun bytes => (Except.ok bytes, w)) (resize_slice hstop)

theorem old_object_reads_iff (h : Old cfg w chunk nonce plaintext)
    (hlone : Lone cfg.cipher cfg.keyId chunk.objectId nonce plaintext
      (cfg.cipher.singleBytes cfg.keyId chunk.objectId nonce plaintext)) :
    (cfg.cipher.openChunk
        { keyId := cfg.keyId
          objectId := chunk.objectId
          plaintextHash := cfg.cipher.hashData plaintext
          ciphertextHash := cfg.cipher.hashData (cfg.cipher.singleBytes cfg.keyId chunk.objectId nonce plaintext)
          ciphertext := cfg.cipher.singleBytes cfg.keyId chunk.objectId nonce plaintext } = .ok plaintext
      ∧ ∀ start stop, start < stop → stop ≤ plaintext.length →
        exec cfg faults (readChunkSlice cfg chunk start stop) w = (.ok ((plaintext.drop start).take (stop - start)), w))
    ↔ ¬ magic <+: nonce := by
  constructor
  · rintro ⟨hopen, -⟩ hmagic
    exact hlone.openChunk_fails h.nonce_length hmagic hopen
  · intro hmagic
    refine ⟨openChunk_singleBytes h.nonce_length hmagic, fun start stop hstart hstop => ?_⟩
    exact h.exec_readChunkSlice hlone hmagic hstart hstop

theorem lone_of_marked {hash : Bytes → Bytes} {k nonce bytes : Bytes} {o : Uuid} (hbytes : 200 ∉ bytes) :
    Lone (markedCipher hash [(nonce, Cipher.aadOf k o, plaintext)]) k o nonce plaintext bytes := by
  intro i last part opened hpart hopened
  obtain ⟨hmark, hsealed⟩ := marked_of_part hbytes hpart hopened
  simp only [List.mem_singleton, Prod.mk.injEq, true_and] at hmark
  rw [hmark.1, hmark.2] at hsealed
  exact ⟨hmark.1, hsealed⟩

def oldServer (nonce : Bytes) : Config := markedServer [(nonce, Cipher.aadOf [] 1, [1, 2, 3])]

def oldStore (nonce : Bytes) : World :=
  (World.fresh 0).keepObject false 1 ⟨(oldServer nonce).cipher.singleBytes [] 1 nonce [1, 2, 3], 7⟩

def oldRow (nonce : Bytes) : FileChunkRecord := recorded (oldServer nonce) 1 [1, 2, 3]

theorem oldStore_old {nonce : Bytes} (hnonce : nonce.length = 24) :
    Old (oldServer nonce) (oldStore nonce) (oldRow nonce) nonce [1, 2, 3] := ⟨hnonce, rfl, rfl, rfl⟩

def plainNonce : Bytes := List.replicate 24 0

theorem old_object_reads :
    Old (oldServer plainNonce) (oldStore plainNonce) (oldRow plainNonce) plainNonce [1, 2, 3]
    ∧ exec (oldServer plainNonce) noFaults (readChunkSlice (oldServer plainNonce) (oldRow plainNonce) 1 3)
      (oldStore plainNonce) = (.ok [2, 3], oldStore plainNonce) := by
  have hold : Old _ (oldStore plainNonce) (oldRow plainNonce) plainNonce _ := oldStore_old rfl
  have hlone : Lone (oldServer plainNonce).cipher [] 1 plainNonce [1, 2, 3]
      ((oldServer plainNonce).cipher.singleBytes [] 1 plainNonce [1, 2, 3]) := lone_of_marked (by decide)
  exact ⟨hold, ((old_object_reads_iff hold hlone).mpr (by decide)).2 1 3 (by decide) (by decide)⟩

def posingNonce : Bytes := magic ++ List.replicate 20 0

theorem old_object_lost :
    Old (oldServer posingNonce) (oldStore posingNonce) (oldRow posingNonce) posingNonce [1, 2, 3]
    ∧ Lone (oldServer posingNonce).cipher [] 1 posingNonce [1, 2, 3]
      ((oldServer posingNonce).cipher.singleBytes [] 1 posingNonce [1, 2, 3])
    ∧ exec (oldServer posingNonce) noFaults (readChunkPlaintext (oldServer posingNonce) (oldRow posingNonce))
      (oldStore posingNonce) = (.error (.internal "chunk integrity failure"), oldStore posingNonce)
    ∧ exec (oldServer posingNonce) noFaults (readChunkSlice (oldServer posingNonce) (oldRow posingNonce) 1 3)
      (oldStore posingNonce) = (.error (.internal "chunk integrity failure"), oldStore posingNonce) :=
  ⟨oldStore_old rfl, lone_of_marked (by decide), rfl, rfl⟩

end Dcfs
