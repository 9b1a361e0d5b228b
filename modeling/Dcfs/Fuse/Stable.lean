import Dcfs.Fuse.Numbering
import Dcfs.Fuse.Fsync

namespace Dcfs.Fuse

open Effects Fs Tables Routine

def Does (setup : Setup) (m m' : Mount) : Prop :=
  ∃ (act : Act) (out : Served Result), Ends anyServer (act.run setup) m () out m' ()

def Result.inos : Result → List ℕ
  | .attr a => [a.ino]
  | .entries listed => listed.map DirEntry.ino
  | _ => []

structure Mount.Ahead (m m' : Mount) : Prop where
  next : m.next ≤ m'.next
  kept : ∀ {ino id}, m'.byIno.lookup ino = some id → ino < m.next → m.byIno.lookup ino = some id

structure Mount.Issued (m : Mount) (inos : List ℕ) : Prop where
  matched : m.Matched
  below : ∀ ino ∈ inos, ino < m.next

namespace Mount

variable {m m' m'' : Mount} {inos : List ℕ}

theorem Ahead.refl (m : Mount) : m.Ahead m := ⟨le_rfl, fun hb _ => hb⟩

theorem Ahead.trans (h : m.Ahead m') (h' : m'.Ahead m'') : m.Ahead m'' where
  next := h.next.trans h'.next
  kept hb hino := h.kept (h'.kept hb (hino.trans_le h.next)) hino

theorem SameNumbers.ahead (h : m.SameNumbers m') : m.Ahead m' where
  next := h.next.ge
  kept hb _ := h.byIno ▸ hb

theorem ahead_inoFor (m : Mount) (id : Uuid) : m.Ahead (m.inoFor id).2 := by
  unfold Mount.inoFor
  cases m.byId.lookup id with
  | some ino => exact .refl m
  | none =>
    constructor
    · exact Nat.le_succ _
    · intro ino id' hb hino
      rw [Mount.bind, lookup_insert, if_neg hino.ne] at hb
      exact hb

theorem ahead_unbind (m : Mount) (ino : ℕ) (id : Uuid) : m.Ahead (m.unbind ino id) := by
  constructor
  · exact le_rfl
  · intro ino' id' hb _
    rw [Mount.unbind, lookup_erase] at hb
    split_ifs at hb
    exact hb

theorem Issued.ahead (h : m.Issued inos) (hm : m'.Matched) (h' : m.Ahead m') : m'.Issued inos :=
  ⟨hm, fun ino hino => (h.below ino hino).trans_le h'.next⟩

theorem Issued.bound (h : m.Issued inos) {ino : ℕ} {id : Uuid} (hb : m.byIno.lookup ino = some id) :
    m.Issued (ino :: inos) := by
  refine ⟨h.matched, fun i hi => ?_⟩
  rcases List.mem_cons.mp hi with rfl | hi
  · exact h.matched.below hb
  · exact h.below i hi

theorem Issued.inoFor (h : m.Issued inos) (id : Uuid) : (m.inoFor id).2.Issued ((m.inoFor id).1 :: inos) := by
  obtain ⟨hgrows, hid⟩ := h.matched.inoFor id
  exact (h.ahead hgrows.matched (m.ahead_inoFor id)).bound (hgrows.matched.pairs.mpr hid)

theorem Issued.of_subset (h : m.Issued inos) {inos' : List ℕ} (hsub : ∀ ino ∈ inos', ino ∈ inos) : m.Issued inos' :=
  ⟨h.matched, fun ino hino => h.below ino (hsub ino hino)⟩

end Mount

variable {setup : Setup} {m m' : Mount}

theorem ahead_upheld (setup : Setup) (m₀ : Mount) : Upheld setup anyServer fun m _ => m₀.Ahead m := by
  apply upheld_of_numbers setup fun _ _ => trivial
  · exact fun h hsame => h.trans hsame.ahead
  · exact fun id h => h.trans (Mount.ahead_inoFor _ id)
  · exact fun h _ => h.trans (Mount.ahead_unbind _ _ _)

theorem issued_upheld (setup : Setup) (inos : List ℕ) : Upheld setup anyServer fun m _ => m.Issued inos := by
  apply upheld_of_numbers setup fun _ _ => trivial
  · exact fun h hsame => h.ahead (hsame.matched h.matched) hsame.ahead
  · exact fun id h => (h.inoFor id).of_subset fun _ hino => List.mem_cons_of_mem _ hino
  · exact fun h hid => h.ahead (h.matched.unbind hid) (Mount.ahead_unbind _ _ _)

def Hands {α : Type} (known : List ℕ) (inos : α → List ℕ) (x : Fs α) : Prop :=
  ∀ m, m.Issued known → Meets anyServer x
    (fun out m' _ => m'.Issued known ∧ ∀ a, out = .ok a → m'.Issued (inos a)) m ()

namespace Hands

variable {α β : Type} {known : List ℕ} {inos : α → List ℕ} {inos' : β → List ℕ}

theorem ok {a : α} (h : ∀ ino ∈ inos a, ino ∈ known) : Hands known inos (pure a) := by
  refine fun m hm => .ok ⟨hm, fun b hb => ?_⟩
  cases hb
  exact hm.of_subset h

theorem fail (e : ClientError) : Hands known inos (Routine.fail e) := fun _ hm => .fail ⟨hm, nofun⟩

theorem mono {x : Fs α} {given : List ℕ} (h : Hands given inos x) (hsub : ∀ ino ∈ known, ino ∈ given) :
    ∀ m, m.Issued given → Meets anyServer x
      (fun out m' _ => m'.Issued known ∧ ∀ a, out = .ok a → m'.Issued (inos a)) m () :=
  fun m hm => (h m hm).mono fun _ _ _ hend => ⟨hend.1.of_subset hsub, hend.2⟩

theorem bind {x : Fs α} {f : α → Fs β} (hx : Hands known inos x) (hf : ∀ a, Hands (inos a ++ known) inos' (f a)) :
    Hands known inos' (x >>= f) := by
  intro m hm
  refine .bind ((hx m hm).mono ?_)
  rintro out m' - ⟨hknown, hout⟩
  cases out with
  | error e => exact ⟨hknown, nofun⟩
  | ok a =>
    have hgiven : m'.Issued (inos a ++ known) := by
      refine ⟨hknown.matched, fun ino hino => ?_⟩
      rcases List.mem_append.mp hino with hino | hino
      · exact (hout a rfl).below ino hino
      · exact hknown.below ino hino
    exact (hf a).mono (fun ino hino => List.mem_append_right _ hino) m' hgiven

theorem after {x : Fs α} {f : α → Fs β} (hx : Keeps anyServer (fun m _ => m.Issued known) x)
    (hf : ∀ a, Hands known inos' (f a)) : Hands known inos' (x >>= f) := by
  intro m hm
  refine .bind ((hx m () hm).mono fun out m' _ hm' => ?_)
  cases out with
  | error e => exact ⟨hm', nofun⟩
  | ok a => exact hf a m' hm'

theorem asked {c : ClientCall} {f : c.Reply → Fs β} (hf : ∀ answer, Hands known inos' (f answer)) :
    Hands known inos' (Fs.ask c >>= f) :=
  after (.ask fun _ _ h => ⟨trivial, fun _ _ _ => h⟩) hf

theorem inoFor (id : Uuid) : Hands known (fun ino => [ino]) (inoFor id) := by
  intro m hm
  have hissued := hm.inoFor id
  refine .update ⟨hissued.of_subset fun _ hino => List.mem_cons_of_mem _ hino, ?_⟩
  rintro _ ⟨⟩
  apply hissued.of_subset
  simp

theorem attrOf (node : NodeResponse) : Hands known (fun a => [a.ino]) (attrOf node) := by
  intro m hm
  have hissued := hm.inoFor node.id
  have hattr : (m.attrOf node).2.Issued ((m.attrOf node).1.ino :: known) :=
    ⟨⟨hissued.matched.pairs, hissued.matched.below⟩, hissued.below⟩
  refine .update ⟨hattr.of_subset fun _ hino => List.mem_cons_of_mem _ hino, ?_⟩
  rintro _ ⟨⟩
  apply hattr.of_subset
  simp

theorem idFor (ino : ℕ) : Hands known (fun _ => [ino]) (idFor ino) := by
  intro m hm
  refine .bind (.update ?_)
  dsimp only
  split
  · rename_i id hid
    refine .ok ⟨hm, fun _ _ => (hm.bound hid).of_subset ?_⟩
    simp
  · exact .fail ⟨hm, nofun⟩

theorem entriesOf (children : List NodeResponse) :
    Hands known (fun entries => entries.map DirEntry.ino) (entriesOf children) := by
  induction children generalizing known with
  | nil => exact .ok nofun
  | cons child rest ih =>
    refine .bind (inoFor child.id) fun ino => .bind ih fun entries => .ok ?_
    simp +contextual

theorem parentInoOf (ino : ℕ) (hino : ino ∈ known) (parentId : Option Uuid) :
    Hands known (fun parentIno => [parentIno]) (parentInoOf ino parentId) := by
  cases parentId with
  | some parentId => exact inoFor parentId
  | none =>
    apply Hands.ok
    simpa using hino

theorem readdirRest (setup : Setup) (ino : ℕ) :
    Hands known (fun entries => entries.map DirEntry.ino) (readdirRest ino) := by
  have hkeeps := fun inos => (issued_upheld setup inos).undisturbed
  refine .bind (idFor ino) fun id => .asked fun answer => .after (Upkeep.served answer) fun node => ?_
  split_ifs
  · exact .fail _
  · refine .bind (parentInoOf ino (by simp) node.parentId) fun parentIno => ?_
    refine .after (Upkeep.childrenFrom (hkeeps _) id _ _) fun children =>
      .bind (entriesOf children) fun entries => .ok ?_
    simp +contextual

theorem reported (answer : Served NodeResponse) :
    Hands known (fun a => [a.ino]) (Fs.served answer >>= fun node => Fuse.attrOf node) :=
  .after (Upkeep.served answer) fun node => attrOf node

theorem attr {x : Fs Attr} (hx : Hands known (fun a => [a.ino]) x) :
    Hands known Result.inos (x >>= fun a => pure (.attr a)) :=
  .bind hx fun _ => .ok fun _ hino => List.mem_append_left _ hino

theorem op (setup : Setup) (op : Op) : Hands known Result.inos (op.run setup) := by
  have h := issued_upheld setup
  cases op with
  | write ino offset data => exact .after ((h _).write ino offset data) fun _ => .ok nofun
  | read ino offset size =>
    refine .after (.bind ((h _).flush ino) fun _ => ?_) fun _ => .ok nofun
    exact Upkeep.readRest (h _).undisturbed setup ino offset size
  | getattr ino =>
    apply attr
    exact .after ((h _).flush ino) fun _ => .after (Upkeep.idFor ino) fun _ => .asked reported
  | lookup parentIno name =>
    apply attr
    exact .after (h _).flushAll fun _ => .after (Upkeep.idFor parentIno) fun _ => .asked reported
  | readdir ino =>
    refine .bind (.after (h _).flushAll fun _ => readdirRest setup ino) fun entries => .ok ?_
    exact fun _ hino => List.mem_append_left _ hino
  | setattr ino req =>
    apply attr
    refine .after ((h _).flush ino) fun _ => .after ?_ fun _ => .after (Upkeep.idFor ino) fun id => ?_
    · cases req.size with
      | some size => exact .update fun _ s hm => (h _).learns (s := s) (.truncated ino size) hm
      | none => exact .ok _
    · exact .after (Upkeep.invalidate (h _).undisturbed setup id) fun _ => .asked reported
  | flush ino => exact .after ((h _).flush ino) fun _ => .ok nofun
  | fsync ino =>
    exact .after (.bind ((h _).flush ino) fun _ => Upkeep.sync (h _).undisturbed ino) fun _ => .ok nofun
  | create parentIno name kind mode uid gid =>
    apply attr
    refine .after (Upkeep.idFor parentIno) fun parentId => ?_
    split
    · exact .fail _
    · exact .asked fun key => .asked reported
  | remove parentIno name => exact .after ((h _).remove parentIno name) fun _ => .ok nofun
  | rename parentIno name newParentIno newName =>
    exact .after ((h _).rename parentIno name newParentIno newName) fun _ => .ok nofun

theorem act (setup : Setup) (act : Act) : Hands known Result.inos (act.run setup) := by
  cases act with
  | op call => exact op setup call
  | symlink parentIno name target uid gid =>
    apply attr
    refine .after (Upkeep.idFor parentIno) fun parentId => ?_
    split
    · exact .fail _
    · split_ifs
      · exact .fail _
      · exact .asked fun key => .asked reported
  | readlink ino => exact .after (Upkeep.readlink (issued_upheld setup known).undisturbed ino) fun _ => .ok nofun

end Hands

theorem Does.ahead (h : Does setup m m') : m.Ahead m' := by
  obtain ⟨act, out, hends⟩ := h
  exact ((ahead_upheld setup m).act act m () (.refl m)).ends hends

theorem Does.matched (h : Does setup m m') (hm : m.Matched) : m'.Matched := by
  obtain ⟨act, out, hends⟩ := h
  exact ((matched_upheld setup fun _ _ => trivial).act act m () hm).ends hends

theorem ahead_of_calls (h : Relation.ReflTransGen (Does setup) m m') : m.Ahead m' := by
  induction h with
  | refl => exact .refl m
  | tail _ hlast ih => exact ih.trans hlast.ahead

theorem matched_of_calls (h : Relation.ReflTransGen (Does setup) m m') (hm : m.Matched) : m'.Matched := by
  induction h with
  | refl => exact hm
  | tail _ hlast ih => exact hlast.matched ih

theorem inode_numbers_stable (setup : Setup) (rootId : Uuid) (m : Mount)
    (h : Relation.ReflTransGen (Does setup) (.fresh rootId) m) :
    (∀ ino id, m.byIno.lookup ino = some id ↔ m.byId.lookup id = some ino)
    ∧ (∀ ino id, m.byIno.lookup ino = some id → ino < m.next)
    ∧ (∀ act out m', Ends anyServer (Act.run setup act) m () (.ok out) m' () → ∀ ino ∈ out.inos, ino < m'.next)
    ∧ ∀ m', Relation.ReflTransGen (Does setup) m m' → m.next ≤ m'.next
      ∧ (∀ ino id, ino < m.next → m'.byIno.lookup ino = some id → m.byIno.lookup ino = some id)
      ∧ ∀ ino id id', m.byIno.lookup ino = some id → m'.byIno.lookup ino = some id' → id' = id := by
  have hm : m.Matched := matched_of_calls h (Mount.fresh_matched rootId)
  refine ⟨fun ino id => hm.pairs, fun ino id => hm.below, ?_, ?_⟩
  · intro act out m' hends ino hino
    have hhands : Hands [] Result.inos (act.run setup) := Hands.act setup act
    exact ((hhands m ⟨hm, nofun⟩).ends hends).2 out rfl |>.below ino hino
  · intro m' hcalls
    have hahead := ahead_of_calls hcalls
    refine ⟨hahead.next, fun ino id hino hb => hahead.kept hb hino, fun ino id id' hb hb' => ?_⟩
    have hbefore := hahead.kept hb' (hm.below hb)
    rw [hb] at hbefore
    exact (Option.some.inj hbefore).symm

def numbered : Mount :=
  ((Act.run bare (.op (.lookup 1 [97])) (.fresh 0)).run (fun c _ => ((oneFile true c []).1, ())) ()).1.2

theorem looked_up_stays :
    Relation.ReflTransGen (Does bare) (.fresh 0) numbered ∧ numbered.byIno.lookup 2 = some 7
    ∧ ∀ m', Relation.ReflTransGen (Does bare) numbered m' → ∀ id, m'.byIno.lookup 2 = some id → id = 7 := by
  have hcall : Relation.ReflTransGen (Does bare) (.fresh 0) numbered :=
    .single ⟨.op (.lookup 1 [97]), _, run_ends (fun _ _ => trivial) _ _ _⟩
  have hbound : numbered.byIno.lookup 2 = some 7 := by decide
  refine ⟨hcall, hbound, fun m' hcalls id hid => ?_⟩
  exact ((inode_numbers_stable bare 0 numbered hcall).2.2.2 m' hcalls).2.2 2 7 id hbound hid

end Dcfs.Fuse
