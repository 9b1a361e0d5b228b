import Dcfs.Server.Request

namespace Dcfs

open Effects Request

structure GcReport where
  objectsDeleted : ℕ
  chunkRowsRemoved : ℕ
  versionsPurged : ℕ
  nodesPurged : ℕ
  sessionsPurged : ℕ
  sizesCorrected : ℕ
  objectsKept : ℕ
  deriving DecidableEq

def GcReport.empty : GcReport := ⟨0, 0, 0, 0, 0, 0, 0⟩

def batch : ℕ := 500

def RepositoryError.text : RepositoryError → String
  | .notFound => "not found"
  | .alreadyExists => "already exists"
  | .conflict => "conflict"
  | .directoryNotEmpty => "directory not empty"
  | .database detail => "database error: " ++ detail

abbrev Sweep (α : Type) := ExceptT String (Program Api) α

namespace Sweep

def ask (c : Call) : Sweep c.Reply := ExceptT.lift (Program.ask (I := Api) c)

def repo {α : Type} : Answer α → Sweep α
  | .ok a => pure a
  | .error e => throw e.text

end Sweep

def collectObject (report : GcReport) (objectId : Uuid) : Sweep GcReport := do
  let forget : Sweep GcReport := do
    let removed ← Sweep.repo (← Sweep.ask (.forgetObject objectId))
    pure { report with
      chunkRowsRemoved := report.chunkRowsRemoved + removed
      objectsDeleted := report.objectsDeleted + 1 }
  match ← Sweep.ask (.delete objectId) with
  | .ok () => forget
  | .error (.notFound _) => forget
  | .error (.retained _) => pure { report with objectsKept := report.objectsKept + 1 }
  | .error _ => pure report

def collectObjects : List Uuid → GcReport → Sweep GcReport
  | [], report => pure report
  | objectId :: rest, report => do collectObjects rest (← collectObject report objectId)

def sweepLocked (retention : ℕ) : Sweep GcReport := do
  let now ← Sweep.ask .utcNow
  let cutoff := now - retention
  let doomed ← Sweep.repo (← Sweep.ask (.query (.collectableObjects cutoff batch)))
  let report ← collectObjects doomed .empty
  let versionsPurged ← Sweep.repo (← Sweep.ask (.purgeEmptyDeadVersions cutoff))
  let nodesPurged ← Sweep.repo (← Sweep.ask (.purgeDeletedNodes cutoff))
  let sessionsPurged ← Sweep.repo (← Sweep.ask (.purgeExpiredSessions (← Sweep.ask .utcNow)))
  let sizesCorrected ← Sweep.repo (← Sweep.ask .reconcileNodeSizes)
  pure { report with
    versionsPurged := versionsPurged
    nodesPurged := nodesPurged
    sessionsPurged := sessionsPurged
    sizesCorrected := sizesCorrected }

def collectOnce (retention : ℕ) : Sweep GcReport := ExceptT.mk do
  let taken : Bool ← Program.ask (I := Api) .tryLockGc
  if taken then
    let result ← (sweepLocked retention).run
    Program.ask (I := Api) .unlockGc
    pure result
  else pure (.ok .empty)

end Dcfs
