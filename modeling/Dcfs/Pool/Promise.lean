import Dcfs.Library.Fallible
import Dcfs.Pool.Traffic

namespace Dcfs

open Effects Request

variable {ε α β : Type} {cfg : Config} {m : Memo}

def Safe (p : ExceptT ε (Program Api) α) (Q : α → Memo → Prop) (m : Memo) : Prop :=
  p.run.Meets (promise Memo.note Memo.Admits) (fun result m' => ∀ a, result = .ok a → Q a m') m

namespace Safe

variable {Q Q' : α → Memo → Prop} {R : β → Memo → Prop}

theorem ok {a : α} (h : Q a m) : Safe (pure a : ExceptT ε (Program Api) α) Q m := Attempts.ok h

theorem error {e : ε} : Safe (throw e : ExceptT ε (Program Api) α) Q m := Attempts.error

theorem mono {p : ExceptT ε (Program Api) α} (h : Safe p Q m) (hQ : ∀ a m', Q a m' → Q' a m') :
    Safe p Q' m :=
  Attempts.mono h hQ

theorem bind {x : ExceptT ε (Program Api) α} {f : α → ExceptT ε (Program Api) β}
    (h : Safe x (fun a m' => Safe (f a) R m') m) : Safe (x >>= f) R m :=
  Attempts.bind h

theorem check {c : Prop} [Decidable c] {e : ε} {k : β → ExceptT ε (Program Api) α}
    {rest : ExceptT ε (Program Api) α} (h : ¬c → Safe rest Q m) :
    Safe (if c then throw e >>= k else rest) Q m :=
  Attempts.check h

theorem ask {c : Call} {Q : c.Reply → Memo → Prop} (hc : Memo.Admits c m)
    (h : ∀ r, Q r (Memo.note c r m)) : Safe (Request.ask c) Q m := by
  refine Attempts.lift (I := Api) hc ?_
  rintro r _ rfl
  exact h r

theorem askSweep {c : Call} {Q : c.Reply → Memo → Prop} (hc : Memo.Admits c m)
    (h : ∀ r, Q r (Memo.note c r m)) : Safe (Sweep.ask c) Q m := by
  refine Attempts.lift (I := Api) hc ?_
  rintro r _ rfl
  exact h r

theorem repo {a : Answer α} (h : ∀ b, a = .ok b → Q b m) : Safe (Request.repo a) Q m := by
  cases a with
  | ok b => exact ok (h b rfl)
  | error e => exact error

theorem repoSweep {a : Answer α} (h : ∀ b, a = .ok b → Q b m) : Safe (Sweep.repo a) Q m := by
  cases a with
  | ok b => exact ok (h b rfl)
  | error e => exact error

theorem store {a : Except ObjectStoreError α} (h : ∀ b, a = .ok b → Q b m) : Safe (Request.store a) Q m := by
  cases a with
  | ok b => exact ok (h b rfl)
  | error e => exact error

theorem step {x : Request α} (h : Safe x Q m) : Safe (liftM x : ReadRequest α) Q m := by
  change Program.Meets _ (x.run >>= fun r => pure (r.mapError Fault.error)) _ _
  refine Program.Meets.bind (Program.Meets.mono h fun result m' hresult a ha => hresult a ?_)
  cases result with
  | ok b =>
    cases ha
    rfl
  | error e => cases ha

theorem withNodeLock {n : Uuid} {body : Request α} (h : Safe body Q m) :
    Safe (Request.withNodeLock n body) Q m := by
  refine ⟨trivial, ?_⟩
  rintro _ _ rfl
  change Program.Meets _ (body.run >>= fun result =>
    Program.call (I := Api) (.unlockNode n) fun _ => pure result) _ _
  refine Program.Meets.bind (Program.Meets.mono h fun result m' hresult => ⟨trivial, ?_⟩)
  rintro _ _ rfl
  exact hresult

theorem forM {xs : List β} {f : β → Request PUnit} (h : ∀ x ∈ xs, Safe (f x) (fun _ m' => m' = m) m) :
    Safe (xs.forM f) (fun _ m' => m' = m) m := by
  induction xs with
  | nil => exact ok rfl
  | cons x xs ih =>
    refine bind ((h x List.mem_cons_self).mono ?_)
    rintro _ _ rfl
    exact ih fun y hy => h y (List.mem_cons_of_mem _ hy)

theorem mapM' {xs : List β} {f : β → Request α} (h : ∀ x ∈ xs, Safe (f x) (fun _ m' => m' = m) m) :
    Safe (xs.mapM' f) (fun _ m' => m' = m) m := by
  induction xs with
  | nil => exact ok rfl
  | cons x xs ih =>
    rw [List.mapM'_cons]
    refine bind ((h x List.mem_cons_self).mono ?_)
    rintro _ _ rfl
    refine bind ((ih fun y hy => h y (List.mem_cons_of_mem _ hy)).mono ?_)
    rintro _ _ rfl
    exact ok rfl

end Safe

theorem Safe.plain {q : Query} {Q : q.Reply → Memo → Prop} (hnote : ∀ r, Memo.note (.query q) r m = m)
    (h : ∀ r, Q r m) : Safe (Request.ask (.query q)) Q m := by
  refine Safe.ask ?_ fun r => (hnote r).symm ▸ h r
  cases q with
  | collectableObjects cutoff limit =>
    have hpicked : 0 :: m.picked = m.picked := congrArg Memo.picked (hnote (.ok (0 :: m.picked)))
    exact absurd hpicked (List.cons_ne_self _ _)
  | _ => trivial

section data

theorem readChunkPlaintext_safe (row : FileChunkRecord) :
    Safe (readChunkPlaintext cfg row) (fun _ m' => m' = m) m := by
  refine .bind (.plain (fun _ => rfl) fun _ => .bind (.store fun _ _ => ?_))
  split
  · exact .ok rfl
  · exact .error

theorem readChunkSlice_safe (row : FileChunkRecord) (start stop : ℕ) :
    Safe (readChunkSlice cfg row start stop) (fun _ m' => m' = m) m := by
  unfold readChunkSlice
  dsimp only
  split_ifs
  · exact .ok rfl
  · refine .bind (.plain (fun _ => rfl) fun _ => .bind (.store fun _ _ => ?_))
    split
    · exact .ok rfl
    · exact .bind ((readChunkPlaintext_safe row).mono fun _ _ h => .ok h)

theorem readPieces_safe (rows : List FileChunkRecord) (partSize offset size first count : ℕ) :
    Safe (readPieces cfg rows partSize offset size first count) (fun _ m' => m' = m) m := by
  refine .bind ((Safe.mapM' fun next _ => ?_).mono ?_)
  · unfold readPiece
    dsimp only
    split
    · exact readChunkSlice_safe _ _ _
    · exact .ok rfl
  · rintro _ _ rfl
    exact .ok rfl

theorem readFrom_safe (version : FileVersionRecord) (offset size : ℕ) :
    Safe (readFrom cfg version offset size) (fun _ m' => m' = m) m :=
  .bind (.step (.plain (fun _ => rfl) fun _ => .bind (.step (.repo fun rows _ =>
    .check fun _ => .step (readPieces_safe rows _ _ _ _ _)))))

theorem readBytes_safe (n : Uuid) (offset size : Option ℕ) :
    Safe (readBytes cfg n offset size) (fun _ _ => True) m := by
  refine .bind (.step (.plain (fun _ => rfl) fun _ => .bind (.step (.repo fun node _ => ?_))))
  refine .check fun _ => ?_
  dsimp only
  split_ifs
  · exact .ok trivial
  · exact .ok trivial
  · unfold readVisible
    refine .bind (.step (.ask trivial fun found => ?_))
    split
    · exact .bind ((readFrom_safe _ _ _).mono fun _ _ _ => .ok trivial)
    · split
      · exact .ok trivial
      · exact .bind (.step (.ask trivial fun _ => .bind (.step (.repo fun _ _ =>
          .bind ((readFrom_safe _ _ _).mono fun _ _ _ => .ok trivial)))))
    · exact .error

theorem writeChunkPlaintext_safe (plaintext : Bytes) (file : Uuid) :
    Safe (writeChunkPlaintext cfg plaintext file) (fun _ m' => m' = m) m :=
  .bind (.ask trivial fun _ => .bind (.ask trivial fun _ => .bind (.store fun _ _ => .ok rfl)))

theorem writeChunk_safe {n v : Uuid} (plan : WritePlan) (body : Bytes) (oldChunks : List FileChunkRecord)
    (i : ℕ) (hwriting : v ∈ m.writing) (hupload : m.request.isUpload = false) :
    Safe (writeChunk cfg n v plan body oldChunks i) (fun _ m' => m' = m) m := by
  have hold : Safe (oldPlaintext cfg plan oldChunks i) (fun _ m' => m' = m) m := by
    unfold oldPlaintext
    split_ifs
    · exact .ok rfl
    · split
      · exact readChunkPlaintext_safe _
      · exact .ok rfl
  refine .bind (hold.mono ?_)
  rintro old _ rfl
  refine .bind ((writeChunkPlaintext_safe _ _).mono ?_)
  rintro ⟨objectId, hash⟩ _ rfl
  refine .bind (.ask hwriting fun _ => .repo fun _ _ => ?_)
  simp [Memo.note, hupload]

theorem oldChunksOf_safe (v : Uuid) (plan : WritePlan) :
    Safe (oldChunksOf v plan) (fun _ m' => m' = m) m := by
  refine .bind (.plain (fun _ => rfl) fun _ => .bind (.repo fun _ _ => ?_))
  split
  · exact .bind (.plain (fun _ => rfl) fun _ => .bind (.repo fun _ _ => .ok rfl))
  · exact .ok rfl

theorem openWorkingVersion_safe (n : Uuid) (node : NodeRecord) (hwrite : m.request.isWrite = true)
    (hupload : m.request.isUpload = false) (hclosing : m.closing = false) :
    Safe (openWorkingVersion cfg n node)
      (fun version m' => version.id ∈ m'.writing ∧ m'.request = m.request) m := by
  refine .bind (.ask trivial fun found => ?_)
  cases found with
  | ok version =>
    refine .ok ?_
    simp [Memo.note, Memo.mark, Memo.meet, hwrite, hclosing]
  | error e =>
    cases e with
    | notFound =>
      dsimp only
      split
      · refine .bind (.ask trivial fun made => .repo fun version hmade => ?_)
        subst hmade
        simp [Memo.note, Memo.mark, Memo.meet, hwrite]
      · refine .bind (.ask trivial fun base => .bind (.repo fun baseVersion hbase => ?_))
        subst hbase
        refine .bind (.ask trivial fun made => .bind (.repo fun version hmade => ?_))
        subst hmade
        refine .bind (.ask ?_ fun _ => .bind (.repo fun _ _ => .ok ?_))
        · simp [Memo.Admits, Memo.note, Memo.mark, Memo.meet, hwrite, hupload]
        · simp [Memo.note, Memo.mark, Memo.meet, hwrite, hupload]
    | _ => exact .error

theorem commitWorkingVersion_safe (n : Uuid) (hwriting : m.writing = [])
    (hclosing : m.request.isWrite = true → m.closing = true) :
    Safe (commitWorkingVersion cfg n) (fun _ _ => True) m := by
  have hmark : (m.request.isWrite && !m.closing) = false := by
    cases hw : m.request.isWrite with
    | false => rfl
    | true => rw [hclosing hw]; rfl
  refine .bind (.ask trivial fun found => ?_)
  cases found with
  | ok working =>
    refine .bind (.ask trivial fun _ => .bind (.repo fun node _ => .bind (.ask ?_ fun _ =>
      .bind (.repo fun _ _ => .ok trivial))))
    simp [Memo.Admits, Memo.note, Memo.mark, Memo.meet, hmark, hwriting]
  | error e =>
    cases e with
    | notFound => exact .ok trivial
    | _ => exact .error

theorem writeLocked_safe (n : Uuid) (offset : ℕ) (body : Bytes) (hwrite : m.request.isWrite = true)
    (hupload : m.request.isUpload = false) (hclosing : m.closing = false) :
    Safe (writeLocked cfg n offset body) (fun _ _ => True) m := by
  refine .bind (.plain (fun _ => rfl) fun _ => .bind (.repo fun node _ => ?_))
  refine .check fun _ => .bind ((openWorkingVersion_safe n node hwrite hupload hclosing).mono ?_)
  rintro working opened ⟨hwriting, hrequest⟩
  refine .bind ((oldChunksOf_safe _ _).mono ?_)
  rintro oldChunks _ rfl
  refine .bind ((Safe.forM fun i _ => writeChunk_safe _ _ _ i hwriting (hrequest ▸ hupload)).mono ?_)
  rintro _ _ rfl
  refine .bind (.ask trivial fun _ => .bind (.repo fun _ _ => .bind (.ask trivial fun _ =>
    .bind (.repo fun _ _ => ?_))))
  dsimp only
  split_ifs
  · exact .bind ((commitWorkingVersion_safe n rfl fun _ => rfl).mono fun _ _ _ => .ok trivial)
  · exact .ok trivial

end data

theorem stageVersion_safe (n : Uuid) : Safe (stageVersion cfg n) (fun _ _ => True) m :=
  .bind (.plain (fun _ => rfl) fun _ => .bind (.repo fun _ _ => .bind (.ask trivial fun _ =>
    .bind (.repo fun _ _ => .ok trivial))))

theorem uploadChunk_safe (v : Uuid) (req : UploadChunkRequest) (body : Bytes)
    (hupload : m.request.isUpload = true) : Safe (uploadChunk cfg v req body) (fun _ _ => True) m := by
  refine .bind (.ask trivial fun found => .bind (.repo fun version hfound => ?_))
  subst hfound
  refine .check fun hstate => ?_
  have hwriting : v ∈ (Memo.note (.query (.getVersion v)) (.ok version) m).writing := by
    simp [Memo.note, Memo.mark, Memo.meet, hupload, not_not.mp hstate]
  generalize Memo.note (.query (.getVersion v)) (.ok version) m = opened at hwriting ⊢
  refine .check fun _ => .check fun _ => .bind ((writeChunkPlaintext_safe _ _).mono ?_)
  rintro ⟨objectId, hash⟩ _ rfl
  exact .check fun _ => .bind (.ask hwriting fun _ => .bind (.repo fun _ _ => .ok trivial))

theorem commitVersion_safe (v : Uuid) (req : CommitVersionRequest) (hwriting : m.writing = [])
    (hupload : m.request.isUpload = false) : Safe (commitVersion v req) (fun _ _ => True) m := by
  refine .bind (.ask trivial fun found => .bind (.repo fun version hfound => ?_))
  subst hfound
  refine .bind (.plain (fun _ => rfl) fun _ => .bind (.repo fun chunks _ => ?_))
  split
  · exact .error
  · refine .check fun _ => .bind (.ask ?_ fun _ => .bind (.repo fun _ _ => .ok trivial))
    simp [Memo.Admits, Memo.note, Memo.mark, Memo.meet, hupload, hwriting]

theorem collectObject_safe (report : GcReport) (o : Uuid) (rest : List Uuid) (hpicked : m.picked = o :: rest) :
    Safe (collectObject report o) (fun _ m' => m'.picked = rest ∧ m'.request = m.request) m := by
  have hmem : o ∈ m.picked := hpicked ▸ List.mem_cons_self
  have hrest : m.picked.erase o = rest := by rw [hpicked, List.erase_cons_head]
  refine .bind (.askSweep hmem fun deleted => ?_)
  cases deleted with
  | ok _ => exact .bind (.askSweep hmem fun _ => .bind (.repoSweep fun _ _ => .ok ⟨hrest, rfl⟩))
  | error e =>
    cases e with
    | notFound o' => exact .bind (.askSweep hmem fun _ => .bind (.repoSweep fun _ _ => .ok ⟨hrest, rfl⟩))
    | retained o' => exact .ok ⟨hrest, rfl⟩
    | alreadyExists o' => exact .ok ⟨hrest, rfl⟩
    | backend detail => exact .ok ⟨hrest, rfl⟩

theorem collectObjects_safe (ids : List Uuid) (report : GcReport) (hpicked : m.picked = ids) :
    Safe (collectObjects ids report) (fun _ m' => m'.request = m.request) m := by
  induction ids generalizing report m with
  | nil => exact .ok rfl
  | cons o rest ih =>
    refine .bind ((collectObject_safe report o rest hpicked).mono fun report' m' h => ?_)
    exact (ih report' h.1).mono fun _ _ hrequest => hrequest.trans h.2

theorem sweepLocked_safe (retention : ℕ) (hsweep : m.request.isSweep = true) :
    Safe (sweepLocked retention) (fun _ _ => True) m := by
  refine .bind (.askSweep trivial fun now => .bind (.askSweep hsweep fun ids => .bind
    (.repoSweep fun doomed hdoomed => ?_)))
  subst hdoomed
  refine .bind ((collectObjects_safe doomed _ rfl).mono fun _ m' hrequest => ?_)
  have hpurge : m'.request.isSweep = true := hrequest ▸ hsweep
  exact .bind (.askSweep hpurge fun _ => .bind (.repoSweep fun _ _ => .bind (.askSweep trivial fun _ =>
    .bind (.repoSweep fun _ _ => .bind (.askSweep trivial fun _ => .bind (.askSweep trivial fun _ =>
      .bind (.repoSweep fun _ _ => .bind (.askSweep trivial fun _ =>
        .bind (.repoSweep fun _ _ => .ok trivial)))))))))

theorem collectOnce_safe (retention : ℕ) (hsweep : m.request.isSweep = true) :
    Safe (collectOnce retention) (fun _ _ => True) m := by
  refine ⟨trivial, ?_⟩
  rintro taken _ rfl
  cases taken with
  | false => exact fun _ _ => trivial
  | true =>
    change Program.Meets _ ((sweepLocked retention).run >>= fun result =>
      Program.call (I := Api) .unlockGc fun _ => pure result) _ _
    refine Program.Meets.bind (Program.Meets.mono (sweepLocked_safe retention hsweep) fun _ _ _ => ⟨trivial, ?_⟩)
    rintro _ _ rfl _ _
    trivial

theorem Safe.finished {p : ExceptT ε (Program Api) α} {Q : α → Memo → Prop} (h : Safe p Q m) :
    (p.run >>= fun _ => pure () : Program Api Unit).Meets (promise Memo.note Memo.Admits)
      (fun _ _ => True) m :=
  Program.Meets.bind (Program.Meets.mono h fun _ _ _ => trivial)

theorem Traffic.meets (cfg : Config) (request : Traffic) :
    (request.program cfg).Meets (promise Memo.note Memo.Admits) (fun _ _ => True) (Memo.start request) := by
  cases request with
  | readBytes n offset size => exact (readBytes_safe n offset size).finished
  | writeBytes n offset body =>
    refine Safe.finished (Q := fun _ _ => True) ?_
    unfold Dcfs.writeBytes
    split_ifs
    · exact .ok trivial
    · exact .withNodeLock (writeLocked_safe n offset body rfl rfl rfl)
  | commitNode n =>
    have hcommit : Safe (commitWorkingVersion cfg n) (fun _ _ => True) (Memo.start (.commitNode n)) :=
      commitWorkingVersion_safe n rfl nofun
    exact Safe.finished (Q := fun _ _ => True) (.bind (.plain (fun _ => rfl) fun _ => .bind (.repo fun _ _ =>
      .bind (.withNodeLock (hcommit.mono fun _ _ _ => .ok trivial)))))
  | stageVersion n => exact (stageVersion_safe n).finished
  | uploadChunk v req body => exact (uploadChunk_safe v req body rfl).finished
  | commitVersion v req => exact (commitVersion_safe v req rfl rfl).finished
  | collectOnce retention => exact (collectOnce_safe retention rfl).finished

end Dcfs
