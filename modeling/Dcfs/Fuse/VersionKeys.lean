import Dcfs.Fuse.Coherence
import Dcfs.Fuse.Fsync

namespace Dcfs.Fuse

open Effects Fs Tables Routine

variable {setup : Setup} {m : Mount} {s t : Shared}

theorem Reading.coherent (h : Reading setup AsCurrent m s) : Coherent s := by
  induction h with
  | start rootId server mode =>
    refine ⟨fun hc => ?_, fun hs => absurd hs List.not_mem_nil⟩
    rw [BlockCache.opened, AList.lookup_empty] at hc
    cases hc
  | step _ hop hends ih => exact (Program.Meets.of_guarded (Op.coherent hop _ _ ih)).ends hends

theorem blocks_of_version (hs : Reading setup AsCurrent m s) {op : Op} (hop : op.isLook = true)
    (hstop : Program.Stops (sharing AsCurrent) (op.run setup m) s t) {key : Key} {data : Bytes}
    (hdata : t.cache.files.lookup key = some data ∨ (key, data) ∈ t.served) : t.server.IsBlock key data := by
  have hcoherent := Program.Meets.stops (Op.coherent hop m s hs.coherent) (fun _ _ h => h) hstop
  exact hdata.elim hcoherent.cached hcoherent.served

def caching : Setup := { bare with hasCache := true }

def oneVersion : Remote where
  versions := AList.insert 1 [1] ∅
  current := AList.insert 7 1 ∅
  working := ∅
  known := by
    intro nodeId v h
    rw [lookup_insert] at h
    split_ifs at h
    · cases h
      rfl
    · rw [AList.lookup_empty] at h
      cases h

def Remote.report (server : Remote) (nodeId : Uuid) : NodeResponse :=
  { emptyReport with
    id := nodeId
    currentVersionId := server.current.lookup nodeId
    size := (server.visible nodeId).length }

def Remote.overtaken (server : Remote) : Remote :=
  if server.versions.lookup 2 = none then (server.write 7 0 [2]).sync 7 2 else server

theorem Remote.overtaken_steps (server : Remote) : Relation.ReflTransGen Remote.Step server server.overtaken := by
  unfold overtaken
  split_ifs with hfresh
  · exact .tail (.single (.write server 7 0 [2])) (.sync _ 7 hfresh)
  · exact .refl

def Shared.isCurrent (s : Shared) (nodeId : Uuid) : Bool :=
  match s.asked with
  | some (asked, v) =>
    asked != nodeId || (s.server.working.lookup nodeId).isSome || s.server.current.lookup nodeId == some v
  | none => true

theorem Shared.asCurrent_of_isCurrent {nodeId : Uuid} (h : s.isCurrent nodeId = true) : AsCurrent s nodeId := by
  intro v hasked hclosed
  simpa [isCurrent, hasked, hclosed] using h

def fetching (overtakes : Bool) : (c : ClientCall) → Shared → c.Reply × Shared
  | .getNode nodeId, s => (.ok (s.server.report nodeId), s)
  | .findChild _ _, s => (.ok (s.server.report 7), s)
  | .listChildren _ _ _, s => (.ok [], s)
  | .readFile nodeId offset size, s => (.ok (s.server.read nodeId offset size).1, s)
  | .readFileCacheable nodeId offset size, s =>
    let s := if overtakes then { s with server := s.server.overtaken } else s
    if overtakes || s.isCurrent nodeId then (.ok (s.server.read nodeId offset size), s.fetched nodeId offset size)
    else (.error .backendUnavailable, s)
  | .writeFile _ _ _, s => (.error .backendUnavailable, s)
  | .loadBlock key, s => ((s.cache.load key).1, s.loaded key)
  | .storeBlock key data, s => ((), { s with cache := s.cache.store key data })
  | .invalidateBlocks nodeId, s => ((), { s with cache := s.cache.invalidate nodeId })
  | c, s => ((oneFile true c []).1, s)

theorem fetching_sharing {allowed : Shared → Uuid → Prop} (overtakes : Bool)
    (h : ∀ s nodeId, overtakes = true ∨ AsCurrent s nodeId → allowed s nodeId) (c : ClientCall) (s : Shared) :
    (sharing allowed).outcome c s (fetching overtakes c s).1 (fetching overtakes c s).2 := by
  have hreport : ∀ nodeId, s.server.Reports (s.server.report nodeId) := fun nodeId => ⟨rfl, rfl⟩
  cases c with
  | readFileCacheable nodeId offset size =>
    cases overtakes with
    | true => exact ⟨_, s.server.overtaken_steps, h _ _ (.inl rfl), rfl, rfl⟩
    | false =>
      refine ⟨s.server, .refl, ?_⟩
      cases hcurrent : s.isCurrent nodeId with
      | true =>
        simp only [fetching, Bool.false_eq_true, if_false, Bool.false_or, hcurrent, if_true]
        exact ⟨h _ _ (.inr (Shared.asCurrent_of_isCurrent hcurrent)), rfl, rfl⟩
      | false =>
        simp only [fetching, Bool.false_eq_true, if_false, Bool.false_or, hcurrent]
        exact rfl
  | getNode nodeId => exact ⟨s.server, .refl, rfl, fun node hnode => by cases hnode; exact ⟨rfl, hreport nodeId⟩⟩
  | findChild parentId name => exact ⟨s.server, .refl, rfl, fun node hnode => by cases hnode; exact hreport 7⟩
  | listChildren parentId limit offset =>
    exact ⟨s.server, .refl, rfl, fun nodes hnodes => by cases hnodes; exact fun _ hmem => absurd hmem List.not_mem_nil⟩
  | readFile nodeId offset size => exact ⟨s.server, .refl, rfl, fun bytes hbytes => by cases hbytes; rfl⟩
  | loadBlock key => exact ⟨s.server, .refl, rfl, rfl⟩
  | storeBlock key data => exact ⟨s.server, .refl, .inl rfl⟩
  | _ => exact ⟨s.server, .refl, rfl⟩

def advanced (overtakes : Bool) (op : Op) (now : Mount × Shared) : Mount × Shared :=
  let ended := (op.run caching now.1).run (fetching overtakes) now.2
  (ended.1.2, ended.2)

theorem advanced_ends {allowed : Shared → Uuid → Prop} {overtakes : Bool}
    (h : ∀ s nodeId, overtakes = true ∨ AsCurrent s nodeId → allowed s nodeId) (op : Op) (now : Mount × Shared) :
    ∃ out, Program.Ends (sharing allowed) (op.run caching now.1) now.2 (out, (advanced overtakes op now).1)
      (advanced overtakes op now).2 :=
  ⟨_, Program.run_ends (fetching_sharing overtakes h) _ _⟩

def opened : Mount × Shared := (.fresh 0, ⟨oneVersion, .opened .mirror, none, []⟩)

def lookedUp : Mount × Shared := advanced false (.lookup 1 [97]) opened

theorem lookedUp_reading {allowed : Shared → Uuid → Prop} (h : ∀ s nodeId, AsCurrent s nodeId → allowed s nodeId) :
    Reading caching allowed lookedUp.1 lookedUp.2 := by
  have hstart : Reading caching allowed opened.1 opened.2 := .start 0 oneVersion .mirror
  obtain ⟨out, hends⟩ := advanced_ends (fun s nodeId hc => h s nodeId (hc.resolve_left Bool.false_ne_true))
    (.lookup 1 [97]) opened
  exact hstart.step rfl hends

theorem blocks_of_version_first : (advanced false (.read 2 0 1) lookedUp).2.cache.files.lookup ⟨7, 1, 0⟩ = some [1]
    ∧ (advanced false (.read 2 0 1) lookedUp).2.server.IsBlock ⟨7, 1, 0⟩ [1] := by
  have hcached : (advanced false (.read 2 0 1) lookedUp).2.cache.files.lookup ⟨7, 1, 0⟩ = some [1] := rfl
  obtain ⟨out, hends⟩ := advanced_ends (fun s nodeId hc => hc.resolve_left Bool.false_ne_true) (.read 2 0 1) lookedUp
  exact ⟨hcached, blocks_of_version (lookedUp_reading fun _ _ h => h) rfl hends.stops (.inl hcached)⟩

theorem fetch_keeps_newer : ∃ (m : Mount) (s t : Shared) (op : Op) (key : Key) (data : Bytes),
    Reading caching (fun _ _ => True) m s ∧ op.isLook = true
      ∧ Program.Stops (sharing fun _ _ => True) (op.run caching m) s t
      ∧ t.cache.files.lookup key = some data ∧ ¬ t.server.IsBlock key data := by
  -- The read goes by the version that was looked up, and is given a block of the next one.
  have hcached : (advanced true (.read 2 0 1) lookedUp).2.cache.files.lookup ⟨7, 1, 0⟩ = some [2] := rfl
  have hversion : (advanced true (.read 2 0 1) lookedUp).2.server.versions.lookup 1 = some [1] := rfl
  obtain ⟨out, hends⟩ := advanced_ends (fun _ _ _ => trivial) (.read 2 0 1) lookedUp
  refine ⟨_, _, _, .read 2 0 1, ⟨7, 1, 0⟩, [2], lookedUp_reading fun _ _ _ => trivial, rfl, hends.stops, hcached, ?_⟩
  rintro ⟨content, hcontent, hdata⟩
  cases hversion.symm.trans hcontent
  exact absurd hdata (by decide)

end Dcfs.Fuse
