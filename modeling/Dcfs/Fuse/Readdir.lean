import Dcfs.Fuse.Http
import Dcfs.Fuse.Session
import Dcfs.Server.Sample

namespace Dcfs.Fuse

open Effects Fs Tables

/-- Whether a reply with these entries has room for one more. The kernel and `fuser` decide it. -/
abbrev Room := List (DirEntry × ℕ) → DirEntry → Bool

def Room.Takes (room : Room) (entry : DirEntry) : Prop := room [] entry = true

instance (room : Room) (entry : DirEntry) : Decidable (room.Takes entry) := inferInstanceAs (Decidable (_ = _))

-- What is added to a reply is an entry with the cookie that continues after it.
structure ReplyDirectory where
  entries : List (DirEntry × ℕ)
  deriving DecidableEq

namespace ReplyDirectory

section

variable (room : Room)

-- True when the reply is full.
def add (reply : ReplyDirectory) (entry : DirEntry) (cookie : ℕ) : Bool × ReplyDirectory :=
  if room reply.entries entry then (false, ⟨reply.entries ++ [(entry, cookie)]⟩) else (true, reply)

def fill (reply : ReplyDirectory) : List (DirEntry × ℕ) → ReplyDirectory
  | [] => reply
  | (entry, index) :: rest =>
    match reply.add room entry (index + 1) with
    | (true, reply) => reply
    | (false, reply) => reply.fill rest

end

def resume (reply : ReplyDirectory) (offset : ℕ) : ℕ :=
  match reply.entries.getLast? with
  | some (_, cookie) => cookie
  | none => offset

def shown (reply : ReplyDirectory) : List DirEntry := reply.entries.map Prod.fst

theorem fill_entries (room : Room) (reply : ReplyDirectory) (entries : List DirEntry) (start : ℕ) :
    ∃ n ≤ entries.length, (reply.fill room (entries.zipIdx start)).entries
        = reply.entries ++ ((entries.take n).zipIdx (start + 1))
      ∧ ((∀ entry ∈ entries.head?, room reply.entries entry = true) → entries ≠ [] → 0 < n) := by
  induction entries generalizing reply start with
  | nil => exact ⟨0, le_rfl, by simp [fill], fun _ h => absurd rfl h⟩
  | cons entry rest ih =>
    rw [List.zipIdx_cons, fill, add]
    by_cases hfits : room reply.entries entry = true
    · rw [if_pos hfits]
      obtain ⟨n, hn, hentries, -⟩ := ih ⟨reply.entries ++ [(entry, start + 1)]⟩ (start + 1)
      refine ⟨n + 1, Nat.succ_le_succ hn, ?_, fun _ _ => Nat.succ_pos n⟩
      rw [List.take_succ_cons, List.zipIdx_cons]
      exact hentries.trans (List.append_assoc ..)
    · rw [if_neg hfits]
      refine ⟨0, Nat.zero_le _, by simp, fun hroom _ => ?_⟩
      exact absurd (hroom entry (Option.mem_some_self entry)) hfits

section

variable (entries : List DirEntry) (offset : ℕ) (room : Room)

def reply : ReplyDirectory := fill room ⟨[]⟩ (entries.zipIdx.drop offset)

theorem reply_entries :
    ∃ n ≤ (entries.drop offset).length, (reply entries offset room).entries
        = ((entries.drop offset).take n).zipIdx (offset + 1)
      ∧ ((∀ entry ∈ entries, room.Takes entry) → entries.drop offset ≠ [] → 0 < n) := by
  have hdrop : entries.zipIdx.drop offset = (entries.drop offset).zipIdx offset := by
    apply List.ext_getElem?
    simp [List.getElem?_drop, List.getElem?_zipIdx]
  obtain ⟨n, hn, hentries, hroom⟩ := fill_entries room ⟨[]⟩ (entries.drop offset) offset
  refine ⟨n, hn, ?_, fun hall => hroom fun entry hentry => ?_⟩
  · rw [reply, hdrop, hentries, List.nil_append]
  · exact hall entry (List.mem_of_mem_drop (List.mem_of_mem_head? hentry))

theorem reply_shown : (reply entries offset room).shown
    = (entries.drop offset).take (reply entries offset room).entries.length := by
  obtain ⟨n, hn, hentries, -⟩ := reply_entries entries offset room
  rw [shown, hentries, List.length_zipIdx, List.length_take_of_le hn]
  simp

theorem reply_resume : (reply entries offset room).resume offset
    = offset + (reply entries offset room).entries.length := by
  obtain ⟨n, hn, hentries, -⟩ := reply_entries entries offset room
  rw [resume, hentries]
  generalize (entries.drop offset).take n = some
  induction some using List.reverseRecOn with
  | nil => rfl
  | append_singleton init entry _ =>
    rw [List.zipIdx_append]
    simp only [List.zipIdx_singleton, List.getLast?_append, List.getLast?_singleton, Option.some_or, List.length_append,
      List.length_zipIdx, List.length_singleton]
    omega

theorem reply_none (hroom : ∀ entry ∈ entries, room.Takes entry)
    (hnone : (reply entries offset room).entries = []) : entries.length ≤ offset := by
  obtain ⟨n, hn, hentries, hpos⟩ := reply_entries entries offset room
  by_contra hlt
  have hdrop : entries.drop offset ≠ [] := by
    rw [Ne, List.drop_eq_nil_iff]
    exact hlt
  have hlen := congrArg List.length (hentries.symm.trans hnone)
  rw [List.length_zipIdx, List.length_take_of_le hn, List.length_nil] at hlen
  exact absurd (hpos hroom hdrop) (by omega)

end

end ReplyDirectory

def readdirReply (setup : Setup) (ino offset : ℕ) (room : Room) : Fs ReplyDirectory := do
  let entries ← readdir setup ino
  pure (.reply entries offset room)

end Dcfs.Fuse
