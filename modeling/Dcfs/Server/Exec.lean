import Dcfs.Server.Gc
import Dcfs.Server.Nodes
import Dcfs.Server.Versions

namespace Dcfs

open Effects

variable (cfg : Config) (faults : Faults) {ε α β : Type}

def exec (p : ExceptT ε (Program Api) α) (w : World) : Except ε α × World :=
  Program.run (handle cfg faults) p.run w

namespace Exec

variable {cfg faults} {w w' : World}

@[simp] theorem exec_pure (a : α) : exec cfg faults (pure a : ExceptT ε (Program Api) α) w = (.ok a, w) :=
  rfl

@[simp] theorem exec_throw (e : ε) :
    exec cfg faults (throw e : ExceptT ε (Program Api) α) w = (.error e, w) := rfl

theorem exec_ask (c : Call) (f : c.Reply → Request α) :
    exec cfg faults (Request.ask c >>= f) w =
      exec cfg faults (f (perform cfg faults w c).1) (perform cfg faults w c).2 := rfl

theorem exec_sweepAsk (c : Call) (f : c.Reply → Sweep α) :
    exec cfg faults (Sweep.ask c >>= f) w =
      exec cfg faults (f (perform cfg faults w c).1) (perform cfg faults w c).2 := rfl

theorem exec_bind (x : ExceptT ε (Program Api) α) (f : α → ExceptT ε (Program Api) β) :
    exec cfg faults (x >>= f) w =
      match exec cfg faults x w with
      | (.ok a, t) => exec cfg faults (f a) t
      | (.error e, t) => (.error e, t) := by
  rw [exec, ExceptT.run_bind, Program.run_bind]
  change _ = match Program.run (handle cfg faults) x.run w with
    | (.ok a, t) => exec cfg faults (f a) t
    | (.error e, t) => (.error e, t)
  rcases Program.run (handle cfg faults) x.run w with ⟨e | a, t⟩ <;> rfl

theorem exec_bind_ok {x : ExceptT ε (Program Api) α} {f : α → ExceptT ε (Program Api) β} {a : α}
    (h : exec cfg faults x w = (.ok a, w')) :
    exec cfg faults (x >>= f) w = exec cfg faults (f a) w' := by
  rw [exec_bind, h]

theorem exec_bind_error {x : ExceptT ε (Program Api) α} {f : α → ExceptT ε (Program Api) β} {e : ε}
    (h : exec cfg faults x w = (.error e, w')) :
    exec cfg faults (x >>= f) w = (.error e, w') := by
  rw [exec_bind, h]

@[simp] theorem repo_ok (a : α) : Request.repo (.ok a) = pure a := rfl

@[simp] theorem repo_error (e : RepositoryError) :
    (Request.repo (.error e) : Request α) = throw (.ofRepository e) := rfl

@[simp] theorem store_ok (a : α) : Request.store (.ok a) = pure a := rfl

section step

variable {x : Request α} {f : α → ReadRequest β}

theorem exec_step (x : Request α) : exec cfg faults (liftM x : ReadRequest α) w =
    ((exec cfg faults x w).1.mapError Fault.error, (exec cfg faults x w).2) := by
  change Program.run (handle cfg faults) (x.run >>= fun r => pure (r.mapError Fault.error)) w = _
  rw [Program.run_bind]
  rfl

theorem exec_step_ok {a : α} (h : exec cfg faults x w = (.ok a, w')) :
    exec cfg faults (liftM x >>= f) w = exec cfg faults (f a) w' := by
  apply exec_bind_ok
  rw [exec_step, h]
  rfl

theorem exec_step_query (q : Query) (f : q.Reply → ReadRequest β) :
    exec cfg faults (liftM (Request.ask (.query q)) >>= f) w = exec cfg faults (f (answer cfg w q)) w := rfl

@[simp] theorem step_repo_ok (a : α) : (liftM (Request.repo (.ok a)) : ReadRequest α) = pure a := rfl

end step

theorem exec_withNodeLock (nodeId : Uuid) (body : Request α) :
    exec cfg faults (Request.withNodeLock nodeId body) w =
      let locked := exec cfg faults body { w with nodeLocks := nodeId :: w.nodeLocks }
      (locked.1, { locked.2 with nodeLocks := locked.2.nodeLocks.erase nodeId }) := by
  change Program.run (handle cfg faults) (body.run >>= fun result =>
    Program.ask (I := Api) (.unlockNode nodeId) >>= fun _ => pure result)
      { w with nodeLocks := nodeId :: w.nodeLocks } = _
  rw [Program.run_bind]
  rfl

def Keeps (cfg : Config) (faults : Faults) (P : World → Prop) (p : ExceptT ε (Program Api) α) : Prop :=
  ∀ w, P w → P (exec cfg faults p w).2

namespace Keeps

variable {P : World → Prop}

theorem ok (a : α) : Keeps cfg faults P (pure a : ExceptT ε (Program Api) α) := fun _ h => h

theorem error (e : ε) : Keeps cfg faults P (throw e : ExceptT ε (Program Api) α) := fun _ h => h

theorem bind {x : ExceptT ε (Program Api) α} {f : α → ExceptT ε (Program Api) β}
    (hx : Keeps cfg faults P x) (hf : ∀ a, Keeps cfg faults P (f a)) : Keeps cfg faults P (x >>= f) := by
  intro w hw
  have hP := hx w hw
  rw [exec_bind]
  cases hres : exec cfg faults x w with
  | mk result t =>
    rw [hres] at hP
    cases result with
    | ok a => exact hf a t hP
    | error e => exact hP

theorem query (q : Query) : Keeps cfg faults P (Request.ask (.query q)) := fun _ h => h

theorem call {c : Call} (h : ∀ w, P w → P (perform cfg faults w c).2) :
    Keeps cfg faults P (Request.ask c) := h

theorem of_calls (h : ∀ c w, P w → P (perform cfg faults w c).2) (p : ExceptT ε (Program Api) α) :
    Keeps cfg faults P p := fun _ hw => Program.run_inv h p.run hw

theorem repo (a : Answer α) : Keeps cfg faults P (Request.repo a) := by
  cases a with
  | ok a => exact ok a
  | error e => exact error _

end Keeps

end Exec

end Dcfs
