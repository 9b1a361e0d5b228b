import Dcfs.Fuse.NamesThrough
import Dcfs.Fuse.ReadThrough
import Dcfs.Fuse.VersionKeys
import Dcfs.Fuse.WriteThrough

namespace Dcfs.Fuse

open Effects Fs Tables Routine

variable {setup : Setup} {m m₀ m₁ : Mount} {s t s₀ s₁ : Ideal}

def Result.untimed : Result → Result
  | .attr a => .attr a.untimed
  | result => result

def Served.untimed (answer : Served Result) : Served Result := answer.map Result.untimed

/-- No write is empty, and a size is set only for an inode that has been given out. -/
def Op.Proper (m : Mount) : Op → Prop
  | .write _ _ data => data ≠ []
  | .setattr ino req => req.size ≠ none → ino < m.next
  | _ => True

theorem result_twin {α β : Type} {x : Fs α} {y : Fs β} {pre : Mount → Ideal → Mount → Ideal → Prop}
    {f : α → Result} {g : β → Result}
    {post : α → β → Mount → Ideal → Mount → Ideal → Prop} (h : Twin ideal pre (Level setup fun _ => True) post x y)
    (hpost : ∀ a b m s m₀ s₀, post a b m s m₀ s₀ → Level setup (fun _ => True) m s m₀ s₀
      ∧ (f a).untimed = (g b).untimed) :
    Twin ideal pre (Level setup fun _ => True)
      (fun r r₀ m s m₀ s₀ => Level setup (fun _ => True) m s m₀ s₀ ∧ r.untimed = r₀.untimed)
      (x >>= fun a => pure (f a)) (y >>= fun b => pure (g b)) :=
  .bind h fun a b => .ok fun m s m₀ s₀ hab => hpost a b m s m₀ s₀ hab

theorem flushed_twin {α β : Type} {K : Mount → Prop} {ino : ℕ} {x : Fs α} {y : Fs β}
    {post : α → β → Mount → Ideal → Mount → Ideal → Prop}
    (hx : Twin ideal (Level setup fun m => m.pending.lookup ino = none)
      (Level setup fun m => m.pending.lookup ino = none) post x y) :
    Twin ideal (Level setup K) (Level setup fun _ => True) post (flush setup ino >>= fun _ => x) y :=
  .lead (fun _ _ _ _ h => flush_level h ino) fun _ =>
    hx.mono (fun _ _ _ _ h => h) (fun _ _ _ _ h => h.any) fun _ _ _ _ _ _ h => h

theorem pending_stable (ino : ℕ) : Stable fun m => m.pending.lookup ino = none :=
  .pending fun pending => pending.lookup ino = none

theorem op_twin (op : Op) :
    Twin ideal (fun m s m₀ s₀ => Level setup (fun _ => True) m s m₀ s₀ ∧ op.Proper m₀) (Level setup fun _ => True)
      (fun r r₀ m s m₀ s₀ => Level setup (fun _ => True) m s m₀ s₀ ∧ r.untimed = r₀.untimed)
        (op.run setup) op.direct := by
  have hlevel : ∀ m s m₀ s₀, Level setup (fun _ => True) m s m₀ s₀ ∧ op.Proper m₀ →
    Level setup (fun _ => True) m s m₀ s₀ :=
    fun _ _ _ _ h => h.1
  cases op with
  | write ino offset data =>
    refine .given (fun _ _ _ _ h => h.2) fun hdata => result_twin ((write_twin hdata).mono hlevel (fun _ _ _ _ h => h)
      fun _ _ _ _ _ _ h => h) fun _ _ _ _ _ _ h => ⟨h.1, congrArg Result.count h.2⟩
  | read ino offset size =>
    refine result_twin ((flushed_twin (readRest_twin (pending_stable ino) fun _ h => h)).mono hlevel
      (fun _ _ _ _ h => h)
      fun _ _ _ _ _ _ h => h) fun _ _ _ _ _ _ h => ⟨h.1.any, congrArg Result.bytes h.2.symm⟩
  | getattr ino =>
    refine result_twin ((flushed_twin (stat_twin (pending_stable ino) fun _ h => h)).mono hlevel (fun _ _ _ _ h => h)
      fun _ _ _ _ _ _ h => h) fun _ _ _ _ _ _ h => ⟨h.1.any, congrArg Result.attr h.2⟩
  | lookup parentIno name =>
    refine result_twin ((lookup_twin settled_stable (fun _ h => h)
      (fun _ _ _ _ h => ⟨h, fun _ _ hn => hn⟩) parentIno name).mono
      hlevel (fun _ _ _ _ h => h.1.any) fun _ _ _ _ _ _ h => h) fun _ _ _ _ _ _ h =>
        ⟨h.1.any, congrArg Result.attr h.2.1⟩
  | readdir ino =>
    refine result_twin (.lead (fun _ _ _ _ h => flushAll_level h.1) fun _ =>
      (readdirRest_twin settled_stable (fun _ h => h) ino).mono
      (fun _ _ _ _ h => h) (fun _ _ _ _ h => h.any) fun _ _ _ _ _ _ h => h) fun _ _ _ _ _ _ h =>
        ⟨h.1.any, congrArg Result.entries h.2.symm⟩
  | setattr ino req => exact result_twin (setattr_twin ino req) fun _ _ _ _ _ _ h => ⟨h.1, congrArg Result.attr h.2⟩
  | flush ino => exact .lead (fun _ _ _ _ h => flush_level h.1 ino) fun _ => .ok fun _ _ _ _ h => ⟨h.any, rfl⟩
  | fsync ino =>
    exact result_twin ((flushed_twin (sync_twin ino)).mono hlevel (fun _ _ _ _ h => h) fun _ _ _ _ _ _ h => h)
      fun _ _ _ _ _ _ h => ⟨h.any, rfl⟩
  | create parentIno name kind mode uid gid =>
    exact result_twin ((create_twin (.pending fun _ => True) parentIno name kind mode uid gid).mono hlevel
      (fun _ _ _ _ h => h)
      fun _ _ _ _ _ _ h => h) fun _ _ _ _ _ _ h => ⟨h.1, congrArg Result.attr h.2⟩
  | remove parentIno name =>
    exact result_twin ((remove_twin parentIno name).mono hlevel (fun _ _ _ _ h => h) fun _ _ _ _ _ _ h => h)
      fun _ _ _ _ _ _ h => ⟨h, rfl⟩
  | rename parentIno name newParentIno newName =>
    exact result_twin ((rename_twin parentIno name newParentIno newName).mono hlevel
      (fun _ _ _ _ h => h) fun _ _ _ _ _ _ h => h)
      fun _ _ _ _ _ _ h => ⟨h, rfl⟩

def runOps (step : Op → Fs Result) : List Op → Fs (List (Served Result))
  | [] => pure []
  | op :: rest => do
    let answer ← attempt (step op)
    let answers ← runOps step rest
    pure (answer :: answers)

inductive Conversation (step : Op → Fs Result) : Mount → Ideal → List (Op × Served Result) → Mount → Ideal → Prop
  | nil (m : Mount) (s : Ideal) : Conversation step m s [] m s
  | cons {m m' n : Mount} {s s' t : Ideal} {op : Op} {answer : Served Result} {rest : List (Op × Served Result)} :
    op.Proper m → Ends ideal (step op) m s answer m' s' → Conversation step m' s' rest n t →
      Conversation step m s ((op, answer) :: rest) n t

theorem untimed_of_alike {answer answer₀ : Served Result}
    (h : Alike (Level setup fun _ => True) (fun r r₀ m s m₀ s₀ => Level setup (fun _ => True) m s m₀ s₀
      ∧ r.untimed = r₀.untimed)
      answer answer₀ m s m₀ s₀) : Served.untimed answer = Served.untimed answer₀
        ∧ Level setup (fun _ => True) m s m₀ s₀ := by
  cases answer with
  | ok r =>
    cases answer₀ with
    | ok r₀ => exact ⟨congrArg Except.ok h.2, h.1⟩
    | error e => exact h.elim
  | error e =>
    cases answer₀ with
    | ok r₀ => exact h.elim
    | error e₀ => exact ⟨congrArg Except.error h.1, h.2⟩

theorem runOps_level {trace : List (Op × Served Result)} (h₀ : Conversation Op.direct m₀ s₀ trace m₁ s₁)
    (h : Level setup (fun _ => True) m s m₀ s₀) :
    Meets ideal (runOps (Op.run setup) (trace.map Prod.fst)) (fun out m' t => ∃ answers, out = .ok answers
      ∧ answers.map Served.untimed = trace.map (fun step => Served.untimed step.2)
        ∧ Level setup (fun _ => True) m' t m₁ s₁) m s := by
  induction h₀ generalizing m s with
  | nil m₀ s₀ => exact .ok ⟨[], rfl, rfl, h⟩
  | cons hproper hends _ ih =>
    refine .bind (.attempt ((op_twin _ _ _ _ _ _ _ _ ⟨h, hproper⟩ hends).mono fun answer m' t hanswer => ?_))
    obtain ⟨huntimed, hlevel⟩ := untimed_of_alike hanswer
    refine .bind ((ih hlevel).mono ?_)
    rintro _ m'' t' ⟨answers, rfl, hanswers, hlevel'⟩
    exact .ok ⟨_, rfl, by rw [List.map_cons, List.map_cons, huntimed, hanswers], hlevel'⟩

/--
Whatever a mount that sends every write at once is answered in a run of operations, a mount that buffers and caches is
answered, up to times, in a run of the same operations, and none of its requests is refused that would be granted to the
other. Once it has sent what is left, its server has the same names and the same bytes.
-/
theorem buffering_invisible (setup : Setup) (rootId : Uuid) (s : Ideal) (mode : Mode) (cache : BlockCache)
    {trace : List (Op × Served Result)}
    (h : Conversation Op.direct (.fresh rootId) { s with cache := cache } trace m₁ s₁) :
    Meets ideal (runOps (Op.run setup) (trace.map Prod.fst) >>= fun answers => flushAll setup >>= fun _ => pure answers)
      (fun out _ t => ∃ answers, out = .ok answers
        ∧ answers.map Served.untimed = trace.map (fun step => Served.untimed step.2)
        ∧ t.nodes = s₁.nodes ∧ t.contents = s₁.contents)
      (.fresh rootId) { s with cache := .opened mode } := by
  refine .bind ((runOps_level h (fresh_level setup rootId s mode cache)).mono ?_)
  rintro _ m' t ⟨answers, rfl, hanswers, hlevel⟩
  refine .bind ((flushAll_level hlevel).mono ?_)
  rintro _ m'' t' ⟨⟨_, rfl⟩, hlevel'⟩
  exact .ok ⟨answers, rfl, hanswers, hlevel'.1.owed.nodes, Level.contents_settled hlevel'⟩

def shelf : Ideal where
  nodes := AList.insert 1 ⟨some 0, [0x61], .file, 0o100644, 0, 0, none⟩
    (AList.insert 0 ⟨none, [], .directory, 0o040755, 0, 0, none⟩ ∅)
  contents := fun _ => []
  nextUuid := 2
  cache := .opened .mirror

def shelfNode (size : ℕ) : NodeResponse :=
  { id := 1, parentId := some 0, name := [0x61], kind := .file, mode := 0o100644, uid := 0, gid := 0, size := size,
    currentVersionId := none, linkTarget := none, generation := 0, atime := 0, mtime := 0, ctime := 0 }

def shelfTrace : List (Op × Served Result) :=
  [(.lookup 1 [0x61], .ok (.attr ((Mount.fresh 0).attrOf (shelfNode 0)).1)), (.write 2 0 [7], .ok (.count 1)),
    (.write 2 1 [8], .ok (.count 1)), (.read 2 0 5, .ok (.bytes [7, 8]))]

theorem idFor_ends {ino : ℕ} {id : Uuid} (h : m.byIno.lookup ino = some id) :
    Ends ideal (idFor ino) m s (.ok id) m s := by
  rw [Ends, idFor_run, h]
  exact .done

theorem shelf_conversation : Conversation Op.direct (.fresh 0) shelf shelfTrace ((Mount.fresh 0).attrOf (shelfNode 0)).2
    ((shelf.put 1 [7]).put 1 [7, 8]) := by
  have hfind : Ends ideal (ask (.findChild 0 [0x61])) (.fresh 0) shelf (.ok (.ok (shelfNode 0))) (.fresh 0) shelf :=
    .ask ⟨⟨_, rfl⟩, rfl, ⟨rfl, rfl⟩, rfl⟩
  refine .cons trivial (.bind (.bind (idFor_ends rfl) (.bind hfind (.bind (.ok _) (.update _)))) (.ok _)) ?_
  generalize hm : ((Mount.fresh 0).attrOf (shelfNode 0)).2 = m
  have hb : m.byIno.lookup 2 = some 1 := by
    rw [← hm]
    rfl
  have hfirst : Ends ideal (ask (.writeFile 1 0 [7])) m shelf (.ok (.ok 1)) m (shelf.put 1 [7]) :=
    .ask ⟨⟨_, rfl, rfl⟩, rfl⟩
  have hsecond : Ends ideal (ask (.writeFile 1 1 [8])) m (shelf.put 1 [7]) (.ok (.ok 1)) m
    ((shelf.put 1 [7]).put 1 [7, 8]) :=
    .ask ⟨⟨_, rfl, rfl⟩, rfl⟩
  refine .cons (List.cons_ne_nil _ _) (.bind (.bind (idFor_ends hb) (.bind hfirst (.bind (.ok _) (.ok _)))) (.ok _)) ?_
  refine .cons (List.cons_ne_nil _ _) (.bind (.bind (idFor_ends hb) (.bind hsecond (.bind (.ok _) (.ok _)))) (.ok _)) ?_
  generalize ht : (shelf.put 1 [7]).put 1 [7, 8] = t
  have hnode : Ends ideal (ask (.getNode 1)) m t (.ok (.ok (shelfNode 2))) m t := by
    rw [← ht]
    exact .ask ⟨⟨_, rfl⟩, rfl, ⟨rfl, rfl⟩, rfl⟩
  have hread : Ends ideal (ask (.readFile 1 0 2)) m t (.ok (.ok [7, 8])) m t := by
    rw [← ht]
    exact .ask ⟨⟨_, rfl⟩, rfl, rfl⟩
  exact .cons trivial (.bind (.bind (idFor_ends hb)
    (.bind (.bind hnode (.ok _)) (.bind hread (.bind (.ok _) (.ok _))))) (.ok _)) (.nil _ _)

theorem shelf_invisible : Conversation Op.direct (.fresh 0) { shelf with cache := .opened .mirror } shelfTrace
      ((Mount.fresh 0).attrOf (shelfNode 0)).2 ((shelf.put 1 [7]).put 1 [7, 8])
    ∧ Meets ideal (runOps (Op.run caching) (shelfTrace.map Prod.fst) >>= fun answers =>
      flushAll caching >>= fun _ => pure answers)
      (fun out _ t => ∃ answers, out = .ok answers
        ∧ answers.map Served.untimed = shelfTrace.map (fun step => Served.untimed step.2)
        ∧ t.nodes = ((shelf.put 1 [7]).put 1 [7, 8]).nodes ∧ t.contents = ((shelf.put 1 [7]).put 1 [7, 8]).contents)
      (.fresh 0) { shelf with cache := .opened (.stream 1) } :=
  ⟨shelf_conversation, buffering_invisible caching 0 shelf (.stream 1) (.opened .mirror) shelf_conversation⟩

end Dcfs.Fuse
