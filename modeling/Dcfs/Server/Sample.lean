import Dcfs.Crypto.Spans
import Dcfs.Server.Dav
import Dcfs.State.Reachable

/-! A small server to run the model on: a cipher that hides nothing, and chunks of four bytes. -/

namespace Dcfs

open World

theorem sample_chunkSize_pos : 0 < 4 := by decide

def sample (backend : Backend) : Config where
  backend := backend
  keepsLocators := false
  chunkSize := 4
  chunkSize_pos := sample_chunkSize_pos
  keyId := []
  cipher := plainCipher
  arrange := id
  arrange_perm := by simp

def inRoot (name : Bytes) : DavPath := ⟨0x2f :: name, name, [0x2f]⟩

def World.trace (cfg : Config) (w : World) (ops : List Operation) : World :=
  ops.foldl (World.after cfg noFaults) w

theorem Reachable.trace {cfg : Config} {w : World} (h : Reachable cfg w) (ops : List Operation) :
    Reachable cfg (w.trace cfg ops) := by
  induction ops generalizing w with
  | nil => exact h
  | cons op rest ih => exact ih (h.step noFaults op)

def newFile (id : Uuid) : Operation :=
  .createNode ⟨0, [102], .file, 0o644, 0, 0, none, id⟩

end Dcfs
