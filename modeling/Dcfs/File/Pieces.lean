import Dcfs.File.Read

namespace Dcfs

open Machine Tables World Request Exec

variable {cfg : Config} {faults : Faults} {w u : World} {P : World → Prop}

theorem store_keeps {α : Type} (a : Except ObjectStoreError α) : Keeps cfg faults P (store a) := by
  cases a with
  | ok a => exact .ok a
  | error e => exact .error _

theorem readChunkPlaintext_keeps (row : FileChunkRecord) : Keeps cfg faults P (readChunkPlaintext cfg row) := by
  refine (Keeps.query _).bind fun _ => (store_keeps _).bind fun _ => ?_
  split
  · exact .ok _
  · exact .error _

theorem readChunkSlice_keeps (row : FileChunkRecord) (start stop : ℕ) :
    Keeps cfg faults P (readChunkSlice cfg row start stop) := by
  unfold readChunkSlice
  dsimp only
  split_ifs
  · exact .ok _
  · refine (Keeps.query _).bind fun _ => (store_keeps _).bind fun _ => ?_
    split
    · exact .ok _
    · exact (readChunkPlaintext_keeps row).bind fun _ => .ok _

theorem exec_bind_pure {α β ε : Type} (x : ExceptT ε (Effects.Program Api) α) (f : α → β) :
    (exec cfg faults (x >>= fun a => pure (f a)) w).1 = (exec cfg faults x w).1.map f := by
  rw [exec_bind]
  rcases exec cfg faults x w with ⟨e | a, t⟩ <;> rfl

theorem mapM'_congr {α β ε : Type} {f g : α → Except ε β} {xs : List α} (h : ∀ x ∈ xs, f x = g x) :
    xs.mapM' f = xs.mapM' g := by
  induction xs with
  | nil => rfl
  | cons x xs ih =>
    rw [List.mapM'_cons, List.mapM'_cons, h x List.mem_cons_self,
      ih fun y hy => h y (List.mem_cons_of_mem _ hy)]

variable (cfg) in
def slice (w : World) (row : FileChunkRecord) (start stop : ℕ) : Except AppError Bytes :=
  (exec cfg noFaults (readChunkSlice cfg row start stop) w).1

theorem slice_forVersion {row : FileChunkRecord} (ho : u.objects.lookup row.objectId = w.objects.lookup row.objectId)
    (v : Uuid) (start stop : ℕ) : slice cfg u (forVersion v row) start stop = slice cfg w row start stop := by
  have hrange : ∀ a b, answer cfg u (.getRange row.objectId a b) = answer cfg w (.getRange row.objectId a b) :=
    fun a b => by simp only [answer, World.getRange, ho]
  have hget : answer cfg u (.get row.objectId) = answer cfg w (.get row.objectId) := by
    simp only [answer, World.get, ho]
  have hwhole : (exec cfg noFaults (readChunkPlaintext cfg (forVersion v row)) u).1 =
      (exec cfg noFaults (readChunkPlaintext cfg row) w).1 := by
    unfold readChunkPlaintext
    rw [exec_query, exec_query]
    change (exec cfg noFaults (store (answer cfg u (.get row.objectId)) >>= _) u).1 = _
    rw [hget]
    cases answer cfg w (.get row.objectId) with
    | error e => rfl
    | ok data =>
      rw [store_ok, pure_bind, pure_bind]
      dsimp only [forVersion]
      split <;> rfl
  unfold slice readChunkSlice
  dsimp only [forVersion]
  split_ifs
  · rfl
  · rw [exec_query, exec_query, hrange]
    cases answer cfg w (.getRange row.objectId _ _) with
    | error e => rfl
    | ok data =>
      rw [store_ok, pure_bind, pure_bind]
      split
      · rfl
      · rw [exec_bind_pure, exec_bind_pure]
        exact congrArg _ hwhole

theorem readPiece_keeps (rows : List FileChunkRecord) (partSize offset size next : ℕ) :
    Keeps cfg faults P (readPiece cfg rows partSize offset size next) := by
  unfold readPiece
  dsimp only
  split
  · exact readChunkSlice_keeps _ _ _
  · exact .ok _

variable (cfg) in
def piece (w : World) (rows : List FileChunkRecord) (offset size next : ℕ) : Except AppError Bytes :=
  (exec cfg noFaults (readPiece cfg rows cfg.partSize offset size next) w).1

theorem exec_mapM'_of_kept {α β ε : Type} {f : α → ExceptT ε (Effects.Program Api) β}
    (h : ∀ x, Keeps cfg faults (· = w) (f x)) (xs : List α) :
    exec cfg faults (xs.mapM' f) w = (xs.mapM' (fun x => (exec cfg faults (f x) w).1), w) := by
  induction xs with
  | nil => rfl
  | cons x xs ih =>
    rw [List.mapM'_cons, List.mapM'_cons, exec_bind]
    have hx := h x w rfl
    cases hres : exec cfg faults (f x) w with
    | mk result t =>
      rw [hres] at hx
      cases hx
      cases result with
      | error e => rfl
      | ok b =>
        dsimp only
        rw [exec_bind, ih]
        cases xs.mapM' (fun x => (exec cfg faults (f x) t).1) <;> rfl

theorem readFrom_eq (hw : Consistent cfg w) {v : Uuid} {version : FileVersionRecord}
    (hv : w.versions.lookup v = some version) {offset size : ℕ} (hpos : 0 < size)
    (hend : offset + size < 2 ^ 63) :
    (exec cfg noFaults (readFrom cfg version offset size) w).1 =
      if 2 ^ 63 ≤ partsSpanned cfg.partSize offset size * vecBytes then .error .panicked
      else (((List.range' (offset / cfg.partSize) (partsSpanned cfg.partSize offset size)).mapM'
        (piece cfg w (w.rowsOf v) offset size)).map List.flatten).mapError .error := by
  have hok := hw.version hv
  have hbound := Nat.div_le_self (offset + size - 1) cfg.partSize
  have hfl : offset / cfg.partSize ≤ (offset + size - 1) / cfg.partSize :=
    Nat.div_le_div_right (by omega)
  by_cases hparts : 2 ^ 63 ≤ partsSpanned cfg.partSize offset size * vecBytes
  · rw [exec_readFrom_panicked hw hv hparts, if_pos hparts]
  · rw [readFrom, hok.part_size, hok.id_eq, exec_step_query, answer_getChunkRange hw hv, step_repo_ok, pure_bind,
      if_neg hparts, if_neg hparts, exec_step, readPieces, exec_bind_pure,
      exec_mapM'_of_kept fun next => readPiece_keeps _ _ _ _ next]
    refine congrArg (fun pieces => Except.mapError _ (Except.map _ pieces)) (mapM'_congr fun next hnext => ?_)
    rw [List.mem_range'_1, partsSpanned] at hnext
    rw [piece, readPiece, readPiece, rowsBetween_atIndex hw hv hnext.1 (by omega) (by omega)]

theorem readPiece_some {rows : List FileChunkRecord} {row : FileChunkRecord} {next : ℕ}
    (h : atIndex rows next = some row) (partSize offset size : ℕ) :
    readPiece cfg rows partSize offset size next = readChunkSlice cfg row (offset - next * partSize)
      (min (offset + size) (next * partSize + partSize) - next * partSize) := by
  rw [readPiece, h]

theorem readPiece_none {rows : List FileChunkRecord} {next : ℕ} (h : atIndex rows next = none)
    (partSize offset size : ℕ) : readPiece cfg rows partSize offset size next =
      pure (List.replicate (min (offset + size) (next * partSize + partSize) - next * partSize
        - (offset - next * partSize)) 0) := by
  rw [readPiece, h]

variable (cfg w) in
def shown (rows : List FileChunkRecord) (i start stop : ℕ) : Except AppError Bytes :=
  match atIndex rows i with
  | some row => slice cfg w row start stop
  | none => .ok (List.replicate (stop - start) 0)

theorem piece_eq (rows : List FileChunkRecord) (offset size next : ℕ) :
    piece cfg w rows offset size next = shown cfg w rows next (offset - next * cfg.partSize)
      (min (offset + size) (next * cfg.partSize + cfg.partSize) - next * cfg.partSize) := by
  rw [piece, shown]
  cases h : atIndex rows next with
  | some row =>
    dsimp only
    rw [readPiece_some h, slice]
  | none => rw [readPiece_none h, exec_pure]

theorem readFrom_single (hw : Consistent cfg w) {v : Uuid} {version : FileVersionRecord}
    (hv : w.versions.lookup v = some version) {i start stop : ℕ} (hlt : start < stop)
    (hstop : stop ≤ cfg.partSize) (hend : i * cfg.partSize + stop < 2 ^ 63) :
    (exec cfg noFaults (readFrom cfg version (i * cfg.partSize + start) (stop - start)) w).1 =
      (shown cfg w (w.rowsOf v) i start stop).mapError .error := by
  have hfirst : (i * cfg.partSize + start) / cfg.partSize = i := by
    rw [Nat.mul_comm, Nat.mul_add_div cfg.partSize_pos, Nat.div_eq_of_lt (by omega), Nat.add_zero]
  have hlast : (i * cfg.partSize + start + (stop - start) - 1) / cfg.partSize = i := by
    rw [show i * cfg.partSize + start + (stop - start) - 1 = cfg.partSize * i + (stop - 1) by
      rw [Nat.mul_comm]; omega, Nat.mul_add_div cfg.partSize_pos, Nat.div_eq_of_lt (by omega), Nat.add_zero]
  have hmin : min (i * cfg.partSize + start + (stop - start)) (i * cfg.partSize + cfg.partSize)
      - i * cfg.partSize = stop := by omega
  have hone : partsSpanned cfg.partSize (i * cfg.partSize + start) (stop - start) = 1 := by
    rw [partsSpanned, hfirst, hlast, Nat.sub_self, Nat.zero_add]
  rw [readFrom_eq hw hv (by omega) (by omega), hone, if_neg (by decide), hfirst]
  have hpiece : piece cfg w (w.rowsOf v) (i * cfg.partSize + start) (stop - start) i =
      shown cfg w (w.rowsOf v) i start stop := by
    rw [piece_eq, hmin, Nat.add_sub_cancel_left]
  rw [← hpiece]
  change Except.mapError _ (Except.map List.flatten
    (((piece cfg w (w.rowsOf v) (i * cfg.partSize + start) (stop - start) i))
    >>= fun b => (pure [b] : Except AppError (List Bytes)))) = _
  cases piece cfg w (w.rowsOf v) (i * cfg.partSize + start) (stop - start) i with
  | error e => rfl
  | ok bytes => exact congrArg Except.ok (List.append_nil bytes)

theorem atIndex_of_mem {version : FileVersionRecord} {rows : List FileChunkRecord}
    (h : ManifestOk cfg w version rows) {row : FileChunkRecord} (hrow : row ∈ rows) :
    atIndex rows (asU64 row.chunkIndex) = some row := by
  have hlt : asU64 row.chunkIndex < 2 ^ 64 := by
    simp only [asU64]
    omega
  rw [atIndex_eq_lookup h.index hlt, asI64_asU64 (h.index row hrow)]
  exact Keyed.lookup_of_mem h.ordered hrow

theorem index_of_atIndex {rows : List FileChunkRecord} {i : ℕ} {row : FileChunkRecord}
    (h : atIndex rows i = some row) : asU64 row.chunkIndex = i := by
  simpa using List.find?_some h

end Dcfs
