import Dcfs.Server.Api
import Mathlib.Tactic.SplitIfs

namespace Dcfs

open Effects

inductive ErrorCode
  | notFound | invalidRequest | conflict | directoryNotEmpty | backendUnavailable | unauthorized
  deriving DecidableEq

structure AppError where
  status : ℕ
  code : ErrorCode
  message : String
  deriving DecidableEq

namespace AppError

def ofNotFound (message : String) : AppError := ⟨404, .notFound, message⟩
def badRequest (message : String) : AppError := ⟨400, .invalidRequest, message⟩
def ofConflict (message : String) : AppError := ⟨409, .conflict, message⟩
def ofDirectoryNotEmpty : AppError := ⟨409, .directoryNotEmpty, "directory is not empty"⟩
def internal (message : String) : AppError := ⟨500, .backendUnavailable, message⟩

def ofRepository : RepositoryError → AppError
  | .notFound => ofNotFound "resource not found"
  | .alreadyExists => ofConflict "resource already exists"
  | .conflict => ofConflict "optimistic concurrency conflict"
  | .directoryNotEmpty => ofDirectoryNotEmpty
  | .database _ => internal "backend unavailable"

def ofObjectStore : ObjectStoreError → AppError
  | .notFound _ => ofNotFound "object not found"
  | .alreadyExists _ => ofConflict "object already exists"
  | .retained _ => internal "backend unavailable"
  | .backend _ => internal "backend unavailable"

end AppError

abbrev Request (α : Type) := ExceptT AppError (Program Api) α

namespace Request

variable {α β : Type}

def ask (c : Call) : Request c.Reply := ExceptT.lift (Program.ask (I := Api) c)

def repo : Answer α → Request α
  | .ok a => pure a
  | .error e => throw (.ofRepository e)

def store : Except ObjectStoreError α → Request α
  | .ok a => pure a
  | .error e => throw (.ofObjectStore e)

-- The guard is dropped on every way out of the body.
def withNodeLock (nodeId : Uuid) (body : Request α) : Request α := ExceptT.mk do
  Program.ask (I := Api) (.lockNode nodeId)
  let result ← body.run
  Program.ask (I := Api) (.unlockNode nodeId)
  pure result

end Request

/-- A read may panic as well: its task ends, and no response is sent. -/
abbrev ReadRequest (α : Type) := ExceptT (Fault AppError) (Program Api) α

def Request.step {α : Type} (request : Request α) : ReadRequest α := ExceptT.mk do
  pure ((← request.run).mapError .error)

instance : MonadLift Request ReadRequest := ⟨Request.step⟩

section

variable {ε α β : Type} {allowed : Call → Prop}

def Confined (allowed : Call → Prop) (p : ExceptT ε (Program Api) α) : Prop := p.run.Uses (I := Api) allowed

namespace Confined

theorem ok (a : α) : Confined allowed (pure a : ExceptT ε (Program Api) α) := trivial

theorem error (e : ε) : Confined allowed (throw e : ExceptT ε (Program Api) α) := trivial

theorem bind {x : ExceptT ε (Program Api) α} {f : α → ExceptT ε (Program Api) β} (hx : Confined allowed x)
    (hf : ∀ a, Confined allowed (f a)) : Confined allowed (x >>= f) := by
  rw [Confined, ExceptT.run_bind]
  refine Program.Uses.bind hx fun result => ?_
  cases result with
  | ok a => exact hf a
  | error e => trivial

theorem check {c : Prop} [Decidable c] {e : ε} {k : β → ExceptT ε (Program Api) α}
    {rest : ExceptT ε (Program Api) α} (h : Confined allowed rest) :
    Confined allowed (if c then throw e >>= k else rest) := by
  split_ifs
  · trivial
  · exact h

theorem ask {c : Call} (h : allowed c) : Confined allowed (Request.ask c) := ⟨h, fun _ => trivial⟩

theorem repo (a : Answer α) : Confined allowed (Request.repo a) := by
  cases a with
  | ok a => trivial
  | error e => trivial

theorem store (a : Except ObjectStoreError α) : Confined allowed (Request.store a) := by
  cases a with
  | ok a => trivial
  | error e => trivial

end Confined

end

end Dcfs
