import Dcfs.Discord.Download
import Dcfs.Library.Fallible

namespace Dcfs.Discord

open Effects Machine Tables

/-- What a CDN that knows ranges may answer; a header that ends before it begins is no range. -/
def Permitted (data : Bytes) (header : Option (ℕ × ℕ)) (answer : DownloadAnswer) : Prop :=
  answer.status = 200 ∧ answer.body = .ok data
    ∨ ∃ first last, header = some (first, last) ∧ first ≤ last
      ∧ (first < data.length ∧ answer.status = 206 ∧ answer.body = .ok ((data.take (last + 1)).drop first)
        ∨ data.length ≤ first ∧ answer.status = 416)

/-- The object is recorded and its message is there; the CDN answers as it may. -/
def cdn (record : ObjectLocatorRecord) (data : Bytes) : Rules Reading Unit where
  admits _ _ := True
  outcome
    | .getObjectLocator _, _, r, _ => r = .ok record
    | .touchObjectUrl _ _, _, r, _ => r = .ok ()
    | .getMessage _ _, _, r, _ => ∃ answer message attachment, r = .ok answer ∧ answer.status = 200
        ∧ answer.json = .ok message
        ∧ message.attachments.find? (fun a => a.id == record.attachmentId) = some attachment
    | .download _ header, _, r, _ => ∃ answer, r = .ok answer ∧ Permitted data header answer
    | .utcNow, _, _, _ => True

variable {record : ObjectLocatorRecord} {data : Bytes} {offset len : ℕ} {store : DiscordObjectStore} {id : Uuid}
  {client : DiscordClient} {url : Text}

def settle (range : Option (ℕ × ℕ)) (answer : DownloadAnswer) : Except (Fault DiscordError) Bytes :=
  if isSuccess answer.status then DiscordClient.cutAnswer range answer
  else .error (.error (.api answer.status answer.text))

theorem downloadRound_answer {range : Option (ℕ × ℕ)}
    {again : Option (Program Reading (Except (Fault DiscordError) Bytes))}
    {header : Option (ℕ × ℕ)} {answer : DownloadAnswer} (h : Permitted data header answer) :
    (if answer.status = 429 then again.getD (pure (.error (.error (.maxRetriesExceeded client.maxAttempts))))
      else if isSuccess answer.status then pure (DiscordClient.cutAnswer range answer)
      else if 500 ≤ answer.status then again.getD (pure (.error (.error (.api answer.status answer.text))))
      else pure (.error (.error (.api answer.status answer.text)))) = Program.done (settle range answer) := by
  have hstatus : answer.status = 200 ∨ answer.status = 206 ∨ answer.status = 416 := by
    rcases h with ⟨hstatus, -⟩ | ⟨first, last, -, -, ⟨-, hstatus, -⟩ | ⟨-, hstatus⟩⟩
    · exact .inl hstatus
    · exact .inr (.inl hstatus)
    · exact .inr (.inr hstatus)
  unfold settle
  rcases hstatus with h | h | h <;> rw [h] <;> rfl

theorem downloadRound_meets (url : Text) (range : Option (ℕ × ℕ))
    (again : Option (Program Reading (Except (Fault DiscordError) Bytes))) :
    (client.downloadRound url range again).Meets (cdn record data)
      (fun result _ => ∃ answer, Permitted data (range.map fun (offset, len) => rangeHeader offset len) answer
        ∧ result = settle range answer) () := by
  refine ⟨trivial, ?_⟩
  rintro r _ ⟨answer, rfl, hanswer⟩
  change Program.Meets _ (ite _ _ _) _ _
  rw [downloadRound_answer hanswer]
  exact ⟨answer, hanswer, rfl⟩

theorem downloadRound_ends {range : Option (ℕ × ℕ)} {answer : DownloadAnswer}
    (hanswer : Permitted data (range.map fun (offset, len) => rangeHeader offset len) answer) (url : Text)
    (again : Option (Program Reading (Except (Fault DiscordError) Bytes))) :
    Program.Ends (cdn record data) (client.downloadRound url range again) () (settle range answer) () := by
  have hout : (cdn record data).outcome (.download url (range.map fun (offset, len) => rangeHeader offset len)) ()
      (.ok answer) () := ⟨answer, rfl, hanswer⟩
  refine .call hout ?_
  change Program.Ends _ (ite _ _ _) _ _ _
  rw [downloadRound_answer hanswer]
  exact .done

theorem downloads (url : Text) (range : Option (ℕ × ℕ)) :
    (client.downloadAttachmentRange url range).Meets (cdn record data)
      (fun result _ => ∃ answer, Permitted data (range.map fun (offset, len) => rangeHeader offset len) answer
        ∧ result = settle range answer) () := by
  unfold DiscordClient.downloadAttachmentRange
  cases client.maxAttempts with
  | zero => exact downloadRound_meets url range none
  | succ left => exact downloadRound_meets url range _

theorem download_ends {range : Option (ℕ × ℕ)} {answer : DownloadAnswer}
    (hanswer : Permitted data (range.map fun (offset, len) => rangeHeader offset len) answer) (url : Text) :
    Program.Ends (cdn record data) (client.downloadAttachmentRange url range) () (settle range answer) () := by
  unfold DiscordClient.downloadAttachmentRange
  cases client.maxAttempts with
  | zero => exact downloadRound_ends hanswer url none
  | succ left => exact downloadRound_ends hanswer url _

theorem fetchMessage_meets (messageId : Text) : (client.fetchMessage messageId).Meets (cdn record data)
    (fun result _ => ∃ message attachment, result = .ok message
      ∧ message.attachments.find? (fun a => a.id == record.attachmentId) = some attachment) () := by
  have hround : ∀ again, (client.fetchRound messageId again).Meets (cdn record data)
      (fun result _ => ∃ message attachment, result = .ok message
        ∧ message.attachments.find? (fun a => a.id == record.attachmentId) = some attachment) () := by
    intro again
    refine ⟨trivial, ?_⟩
    rintro r _ ⟨answer, message, attachment, rfl, hstatus, hjson, hfound⟩
    change Program.Meets _ (ite _ _ _) _ _
    rw [hstatus, hjson]
    exact ⟨message, attachment, rfl, hfound⟩
  unfold DiscordClient.fetchMessage
  cases client.maxAttempts with
  | zero => exact hround none
  | succ left => exact hround _

theorem refreshUrl_succeeds {l : DiscordLocator} (hl : l.attachmentId = record.attachmentId) :
    Succeeds (cdn record data) (store.refreshUrl l) (fun _ _ => True) () := by
  refine Succeeds.bind (.lift ((fetchMessage_meets l.messageId).mono ?_))
  rintro result _ ⟨message, attachment, rfl, hfound⟩
  rw [← hl] at hfound
  simp only [hfound]
  refine ⟨trivial, ?_⟩
  rintro r _ rfl
  exact ⟨attachment.url, rfl, trivial⟩

theorem freshUrl_succeeds {l : DiscordLocator} (hl : l.attachmentId = record.attachmentId) :
    Succeeds (cdn record data) (store.freshUrl l) (fun _ _ => True) () := by
  unfold DiscordObjectStore.freshUrl
  cases urlExpiry l.url with
  | none => exact .ok trivial
  | some expiry =>
    refine ⟨trivial, ?_⟩
    rintro now _ -
    change Program.Meets _ (ExceptT.run (ite _ _ _)) _ _
    split_ifs
    · exact refreshUrl_succeeds hl
    · exact Succeeds.ok trivial

theorem cdn_total (record : ObjectLocatorRecord) (data : Bytes) (c : ReadCall) (s : Unit) :
    ∃ r t, (cdn record data).outcome c s r t := by
  cases c with
  | getObjectLocator id => exact ⟨.ok record, (), rfl⟩
  | touchObjectUrl id url => exact ⟨.ok (), (), rfl⟩
  | getMessage webhookId messageId =>
    refine ⟨.ok ⟨200, "", .ok ⟨[], [⟨record.attachmentId, 0, []⟩]⟩⟩, (), _, _, ⟨record.attachmentId, 0, []⟩, rfl, rfl,
      rfl, ?_⟩
    simp
  | download url header => exact ⟨.ok ⟨200, "", .ok data⟩, (), _, rfl, .inl ⟨rfl, rfl⟩⟩
  | utcNow => exact ⟨0, (), trivial⟩

theorem rangeHeader_eq (hpos : 1 ≤ len) (h : offset + len < 2 ^ 64) :
    rangeHeader offset len = (offset, offset + len - 1) := by
  rw [rangeHeader, addU64_of_lt h, show ((offset + len : ℕ) : ℤ) - 1 = ((offset + len - 1 : ℕ) : ℤ) by omega,
    asU64_of_lt (by omega)]

theorem settle_inside (hpos : 1 ≤ len) (h : offset + len < 2 ^ 64) (hinside : offset < data.length)
    {answer : DownloadAnswer} (hanswer : Permitted data (some (rangeHeader offset len)) answer) :
    settle (some (offset, len)) answer = .ok (rangeOf data offset len) := by
  rw [rangeHeader_eq hpos h] at hanswer
  rcases hanswer with ⟨hstatus, hbody⟩ | ⟨first, last, heq, -, ⟨-, hstatus, hbody⟩ | ⟨hpast, -⟩⟩
  · simp only [settle, hstatus, DiscordClient.cutAnswer, hbody]
    exact sliceRange_eq (by omega)
  · cases heq
    simp only [settle, hstatus, DiscordClient.cutAnswer, hbody]
    rw [Nat.sub_add_cancel (by omega), rangeOf_eq, List.take_drop]
    rfl
  · cases heq
    omega

theorem getRange_succeeds (hpos : 1 ≤ len) (h : offset + len < 2 ^ 64) (hinside : offset < data.length) :
    Succeeds (cdn record data) (store.getRange id offset len) (fun bytes _ => bytes = rangeOf data offset len) () := by
  refine Succeeds.bind ⟨trivial, ?_⟩
  rintro r _ rfl
  refine ⟨_, rfl, Succeeds.bind ((freshUrl_succeeds rfl).mono ?_)⟩
  rintro result _ ⟨url, rfl, -⟩
  refine ⟨url, rfl, Succeeds.bind (.lift ((downloads url _).mono ?_))⟩
  rintro result _ ⟨answer, hanswer, rfl⟩
  rw [settle_inside hpos h hinside hanswer]
  exact .ok rfl

theorem getRange_unsatisfiable (hpos : 1 ≤ len) (h : offset + len < 2 ^ 64) (hpast : data.length ≤ offset) :
    Program.Ends (cdn record data) (store.getRange id offset len).run ()
      (.error (.error (.backend "Discord API error 416: "))) () := by
  have hanswer : Permitted data (some (rangeHeader offset len)) ⟨416, "", .ok []⟩ := by
    rw [rangeHeader_eq hpos h]
    exact .inr ⟨offset, offset + len - 1, rfl, by omega, .inr ⟨hpast, rfl⟩⟩
  have hlocator : Program.Ends (cdn record data) (DiscordObjectStore.findLocator id).run ()
      (.ok (Locators.locator id record)) () := by
    have hrow : (cdn record data).outcome (.getObjectLocator id) () (.ok record) () := rfl
    exact .call hrow .done
  have hlink : Succeeds (cdn record data) (store.freshUrl (Locators.locator id record)) (fun _ _ => True) () :=
    freshUrl_succeeds rfl
  have hanew : Succeeds (cdn record data) (store.refreshUrl (Locators.locator id record)) (fun _ _ => True) () :=
    refreshUrl_succeeds rfl
  obtain ⟨url, _, hurl, -⟩ := hlink.exists_end (cdn_total record data)
  obtain ⟨fresh, _, hfresh, -⟩ := hanew.exists_end (cdn_total record data)
  refine hlocator.andThen (hurl.andThen (Program.Ends.andThen (download_ends hanswer url).lift ?_))
  exact hfresh.andThen (Program.Ends.andThen (download_ends hanswer fresh).lift .done)

structure Kept (get : Uuid → Except ObjectStoreError Bytes) (objects files : Table Uuid Bytes)
    (reads : ℕ → Except String ℕ) (id : Uuid) (data : Bytes) : Prop where
  got : get id = .ok data
  object : objects.lookup id = some data
  file : files.lookup id = some data
  reads_ok : ∀ k, ∃ n, reads k = .ok n

theorem ranges_alike_iff {get : Uuid → Except ObjectStoreError Bytes} {objects files : Table Uuid Bytes}
    {reads : ℕ → Except String ℕ} (hkept : Kept get objects files reads id data) (hdata : data.length < 2 ^ 63)
    (hpos : 1 ≤ len) :
    (defaultGetRange get id offset len = .ok (rangeOf data offset len)
      ∧ MemoryObjectStore.getRange objects id offset len = .ok (rangeOf data offset len)
      ∧ FsObjectStore.getRange files reads id offset len = .ok (rangeOf data offset len)
      ∧ Succeeds (cdn record data) (store.getRange id offset len) (fun bytes _ => bytes = rangeOf data offset len) ())
    ↔ offset < data.length ∧ len < 2 ^ 63 := by
  rw [FsObjectStore.getRange_eq hkept.reads_ok hkept.file]
  constructor
  · rintro ⟨-, -, ⟨hoffset, hlen⟩, hdiscord⟩
    refine ⟨?_, hlen⟩
    by_contra hpast
    obtain ⟨bytes, hbytes, -⟩ := hdiscord.ends (getRange_unsatisfiable hpos (by omega) (not_lt.mp hpast))
    cases hbytes
  · rintro ⟨hinside, hlen⟩
    have hslice : sliceRange data offset len
      = (.ok (rangeOf data offset len) : Except (Fault ObjectStoreError) Bytes) :=
      sliceRange_eq (by omega)
    refine ⟨?_, ?_, ⟨by omega, hlen⟩, getRange_succeeds hpos (by omega) hinside⟩
    · rw [defaultGetRange, hkept.got]
      exact hslice
    · rw [MemoryObjectStore.getRange, defaultGetRange, MemoryObjectStore.get, hkept.object]
      exact hslice

def smallStore : DiscordObjectStore := ⟨[⟨"1".toList, 5⟩], by decide⟩

def smallRecord : ObjectLocatorRecord := ⟨7, "discord".toList, "10".toList, "20".toList, "u".toList, 3⟩

theorem small_kept : Kept (fun _ => .ok [1, 2, 3]) (AList.singleton 7 [1, 2, 3]) (AList.singleton 7 [1, 2, 3])
    (fun _ => .ok 2) 7 [1, 2, 3] := ⟨rfl, rfl, rfl, fun _ => ⟨2, rfl⟩⟩

theorem ranges_alike_small : rangeOf [1, 2, 3] 1 5 = [2, 3]
    ∧ FsObjectStore.getRange (AList.singleton 7 [1, 2, 3]) (fun _ => .ok 2) 7 1 5 = .ok [2, 3]
    ∧ Succeeds (cdn smallRecord [1, 2, 3]) (smallStore.getRange 7 1 5) (fun bytes _ => bytes = [2, 3]) () := by
  exact ⟨rfl, ((ranges_alike_iff small_kept (by decide) (by decide)).mpr ⟨by decide, by decide⟩).2.2⟩

-- At the end of the object: nothing from the memory store, an error from Discord.
theorem ranges_differ : MemoryObjectStore.getRange (AList.singleton 7 [1, 2, 3]) 7 3 1 = .ok []
    ∧ Program.Ends (cdn smallRecord [1, 2, 3]) (smallStore.getRange 7 3 1).run ()
      (.error (.error (.backend "Discord API error 416: "))) () :=
  ⟨rfl, getRange_unsatisfiable (by decide) (by decide) (by decide)⟩

end Dcfs.Discord
