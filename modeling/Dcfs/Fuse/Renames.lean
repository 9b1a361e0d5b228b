import Dcfs.Fuse.Numbering
import Dcfs.Fuse.Fsync

namespace Dcfs.Fuse

open Effects Fs Tables Routine

/--
The entries that the server has reported, one for each name it was asked for and found. The nodes it
reports exist, and any request may fail.
-/
def finding (live : Uuid → Prop) : Rules Client (List NodeResponse) where
  admits _ _ := True
  outcome c s r t :=
    match c, r with
    | .findChild _ _, .ok node => live node.id ∧ t = s ++ [node]
    | _, _ => t = s

/-- Each number of a file that exists is still its number, and the one that the file is looked up with. -/
def Usable (live : Uuid → Prop) (m m' : Mount) : Prop :=
  ∀ ino id, m.byIno.lookup ino = some id → live id → m'.byIno.lookup ino = some id ∧ (m'.inoFor id).1 = ino

/-- There is a file under the new name, not the renamed one, that the mount has numbered. -/
def Displaced (m : Mount) (found : List NodeResponse) : Prop :=
  ∃ target replaced, found = [target, replaced] ∧ replaced.id ≠ target.id ∧ (m.byId.lookup replaced.id).isSome = true

inductive Renumbered (live : Uuid → Prop) (m : Mount) (found : List NodeResponse) (m' : Mount) : Prop
  | grown (h : m.Grows m') (hfound : ∀ target replaced, found = [target, replaced] → replaced.id = target.id)
  | given {m₁ : Mount} {ino : ℕ} {target replaced : NodeResponse} (hfound : found = [target, replaced])
      (hlive : live replaced.id) (hne : replaced.id ≠ target.id) (hgrows : m.Grows m₁)
      (hino : m₁.byIno.lookup ino = some replaced.id) (hsame : (m₁.unbind ino replaced.id).SameNumbers m')

variable {setup : Setup} {live : Uuid → Prop} {m m' : Mount} {s found : List NodeResponse} {α : Type}

theorem Mount.Matched.inoFor_eq (h : m.Matched) {ino : ℕ} {id : Uuid} (hid : m.byIno.lookup ino = some id) :
    (m.inoFor id).1 = ino := by
  rw [Mount.inoFor, h.pairs.mp hid]

theorem Renumbered.usable_iff (hm : m.Matched) (h : Renumbered live m found m') :
    Usable live m m' ↔ ¬ Displaced m found := by
  cases h with
  | grown hgrows hfound =>
    refine iff_of_true (fun ino id hid _ => ?_) ?_
    · have hid' := hgrows.bound hid
      exact ⟨hid', hgrows.matched.inoFor_eq hid'⟩
    · rintro ⟨target, replaced, heq, hne, -⟩
      exact hne (hfound target replaced heq)
  | @given m₁ ino target replaced hfound hlive hne hgrows hino hsame =>
    have hm' := hsame.matched (hgrows.matched.unbind hino)
    constructor
    · rintro husable ⟨target', replaced', heq, -, hknown⟩
      cases hfound.symm.trans heq
      obtain ⟨ino', hino'⟩ := Option.isSome_iff_exists.mp hknown
      have hid' := hm.pairs.mpr hino'
      -- the one number that the file had is gone
      have hsame' : ino' = ino :=
        Option.some.inj ((hgrows.matched.pairs.mp (hgrows.bound hid')).symm.trans (hgrows.matched.pairs.mp hino))
      have hstill := (husable ino' replaced.id hid' hlive).1
      rw [hsame.byIno, Mount.unbind, lookup_erase, if_pos hsame'] at hstill
      cases hstill
    · intro hnot ino' id hid _
      have hne' : ino' ≠ ino := by
        rintro rfl
        have hid₁ := Option.some.inj ((hgrows.bound hid).symm.trans hino)
        subst hid₁
        exact hnot ⟨target, replaced, hfound, hne, by rw [hm.pairs.mp hid]; rfl⟩
      have hid' : m'.byIno.lookup ino' = some id := by
        rw [hsame.byIno, Mount.unbind, lookup_erase, if_neg hne']
        exact hgrows.bound hid
      exact ⟨hid', hm'.inoFor_eq hid'⟩

theorem finding_sends (m₀ : Mount) (c : ClientCall) (hc : c.isSend = true) :
    Allows (finding live) (fun m t => m = m₀ ∧ t = s) c := by
  rintro _ _ ⟨rfl, rfl⟩
  refine ⟨trivial, fun r t ho => ⟨rfl, ?_⟩⟩
  cases c with
  | writeFile _ _ _ | finishRun _ | invalidateBlocks _ => exact ho
  | _ => cases hc

theorem flushAll_numbers : Meets (finding live) (flushAll setup) (fun _ m' t => m.SameNumbers m' ∧ t = s) m s := by
  refine .bind (.update (.bind (.update ((Upkeep.sendAll (finding_sends _) _ _ s ⟨rfl, rfl⟩).mono ?_))))
  rintro _ _ _ ⟨rfl, rfl⟩
  exact ⟨⟨rfl, rfl, rfl⟩, rfl⟩

theorem lookup_numbers (parentIno : ℕ) (name : Bytes) : Meets (finding live) (lookup setup parentIno name)
    (fun out m' t => match out with
      | .ok attr => ∃ node, live node.id ∧ t = s ++ [node] ∧ attr.ino = (m.inoFor node.id).1
          ∧ (m.inoFor node.id).2.SameNumbers m'
      | .error _ => t = s ∧ m.SameNumbers m') m s := by
  refine .bind (flushAll_numbers.mono ?_)
  rintro out m₁ _ ⟨hsame, rfl⟩
  cases out with
  | error e => exact ⟨rfl, hsame⟩
  | ok _ =>
    refine .bind (.bind (.update ?_))
    dsimp only
    split
    · refine .ok (.bind (.ask trivial fun answer t ho => ?_))
      cases answer with
      | error e =>
        obtain rfl : t = _ := ho
        exact .bind (.fail ⟨rfl, hsame⟩)
      | ok node =>
        obtain ⟨hlive, rfl⟩ := ho
        obtain ⟨hino, hnumbers⟩ := hsame.inoFor node.id
        exact .bind (.ok (.update ⟨node, hlive, rfl, hino, hnumbers.trans ⟨rfl, rfl, rfl⟩⟩))
    · exact .fail ⟨rfl, hsame⟩

theorem discard_numbers (ino : ℕ) : Meets (finding live) (discard setup ino)
    (fun out m' t => out = .ok () ∧ m.SameNumbers m' ∧ t = s) m s := by
  refine .bind (.update ?_)
  dsimp only
  split
  · rename_i run hrun
    refine .bind (.update ((Upkeep.finish_done (fun _ => finding_sends _ _ rfl) run ⟨rfl, rfl⟩).mono ?_))
    rintro _ _ _ ⟨rfl, rfl, rfl⟩
    exact ⟨rfl, ⟨rfl, rfl, rfl⟩, rfl⟩
  · exact .ok ⟨rfl, .refl m, rfl⟩

theorem forgetReplaced_numbers {ino : ℕ} {id : Uuid} (hid : m.byIno.lookup ino = some id) :
    Meets (finding live) (forgetReplaced setup ino)
      (fun out m' t => out = .ok () ∧ (m.unbind ino id).SameNumbers m' ∧ t = s) m s := by
  refine .bind ((discard_numbers ino).mono ?_)
  rintro _ m₁ _ ⟨rfl, hsame, rfl⟩
  refine .bind (.update ?_)
  dsimp only
  rw [hsame.byIno, hid]
  refine .bind ((Upkeep.dropBlocks_done (finding_sends _ (.invalidateBlocks id) rfl) ⟨rfl, rfl⟩).mono ?_)
  rintro _ _ _ ⟨rfl, rfl, rfl⟩
  exact .update ⟨rfl, ⟨by simp only [Mount.unbind, hsame.byIno], by simp only [Mount.unbind, hsame.byId],
    hsame.next⟩, rfl⟩

theorem idFor_numbers (ino : ℕ) : Meets (finding live) (idFor ino) (fun _ m' t => m' = m ∧ t = s) m s := by
  have hkeeps : Keeps (finding live) (fun m' t => m' = m ∧ t = s) (idFor ino) := Upkeep.idFor ino
  exact hkeeps m s ⟨rfl, rfl⟩

theorem renamed_numbers (id newParentId : Uuid) (newName : Bytes) :
    Meets (finding live) (match toName newName with
      | .error _ => Routine.fail .invalidName
      | .ok newName => do
        let _ ← served (← Fs.ask (.renameNode id newParentId newName))
        pure ()) (fun _ m' t => m' = m ∧ t = s) m s := by
  split
  · exact .fail ⟨rfl, rfl⟩
  · refine .bind (.ask trivial fun answer t ho => ?_)
    obtain rfl : t = s := ho
    cases answer with
    | error e => exact .bind (.fail ⟨rfl, rfl⟩)
    | ok _ => exact .bind (.ok (.ok ⟨rfl, rfl⟩))

theorem replacing_numbers {m₁ : Mount} {target replaced : NodeResponse} (hlive : live replaced.id)
    (hgrows : m.Grows m₁) {ino : ℕ} (hino : m₁.byIno.lookup ino = some target.id) {attr : Attr}
    (hattr : m₁.byIno.lookup attr.ino = some replaced.id) :
    Meets (finding live) (replacing setup ino (.ok attr)) (fun out m' t => out = .ok () ∧ Renumbered live m t m') m₁
      [target, replaced] := by
  have hpairs := hgrows.matched
  simp only [replacing]
  split_ifs with hne
  · have hdiff : replaced.id ≠ target.id := by
      intro heq
      rw [heq] at hattr
      exact hne (Option.some.inj ((hpairs.pairs.mp hattr).symm.trans (hpairs.pairs.mp hino)))
    refine (forgetReplaced_numbers hattr).mono ?_
    rintro _ m' _ ⟨rfl, hsame, rfl⟩
    exact ⟨rfl, .given rfl hlive hdiff hgrows hattr hsame⟩
  · refine .ok ⟨rfl, .grown hgrows fun target' replaced' heq => ?_⟩
    cases heq
    rw [not_not] at hne
    rw [hne] at hattr
    exact Option.some.inj (hattr.symm.trans hino)

theorem rename_numbers (hm : m.Matched) (parentIno : ℕ) (name : Bytes) (newParentIno : ℕ) (newName : Bytes) :
    Meets (finding live) (rename setup parentIno name newParentIno newName)
      (fun _ m' t => Renumbered live m t m') m [] := by
  have hone : ∀ {m₁ : Mount} {found : List NodeResponse}, m.Grows m₁ → found.length < 2 →
    Renumbered live m found m₁ := by
    intro m₁ found hgrows hshort
    refine .grown hgrows fun target replaced heq => ?_
    rw [heq] at hshort
    exact absurd hshort (Nat.lt_irrefl 2)
  refine .bind ((lookup_numbers parentIno name).mono fun out m₁ t₁ hout => ?_)
  cases out with
  | error e =>
    obtain ⟨rfl, hsame⟩ := hout
    exact hone ((Mount.Grows.refl hm).same hsame) (by decide)
  | ok attr =>
    obtain ⟨target, -, rfl, hattr, hsame⟩ := hout
    obtain ⟨hgrows, hnumber⟩ := hm.inoFor target.id
    have hgrows₁ := hgrows.same hsame
    have htarget : m₁.byIno.lookup attr.ino = some target.id := by
      rw [hattr, hsame.byIno]
      exact hgrows.matched.pairs.mpr hnumber
    refine .bind ((idFor_numbers _).mono ?_)
    rintro out _ _ ⟨rfl, rfl⟩
    cases out with
    | error e => exact hone hgrows₁ (by decide : 1 < 2)
    | ok id =>
      refine .bind ((idFor_numbers _).mono ?_)
      rintro out _ _ ⟨rfl, rfl⟩
      cases out with
      | error e => exact hone hgrows₁ (by decide : 1 < 2)
      | ok newParentId =>
        refine .bind (.attempt ((lookup_numbers newParentIno newName).mono fun found m₂ t₂ hfound => ?_))
        cases found with
        | error e =>
          obtain ⟨rfl, hsame₂⟩ := hfound
          refine .bind (.ok ((renamed_numbers id newParentId newName).mono ?_))
          rintro _ _ _ ⟨rfl, rfl⟩
          exact hone (hgrows₁.same hsame₂) (by decide : 1 < 2)
        | ok attr₂ =>
          obtain ⟨replaced, hlive, rfl, hattr₂, hsame₂⟩ := hfound
          obtain ⟨hgrows₂, hnumber₂⟩ := hgrows₁.matched.inoFor replaced.id
          have hgrown := hgrows₂.same hsame₂
          have hreplaced : m₂.byIno.lookup attr₂.ino = some replaced.id := by
            rw [hattr₂, hsame₂.byIno]
            exact hgrows₂.matched.pairs.mpr hnumber₂
          refine .bind ((replacing_numbers hlive (hgrows₁.trans hgrown) (hgrown.bound htarget) hreplaced).mono ?_)
          rintro _ m₃ t₃ ⟨rfl, hrenumbered⟩
          refine (renamed_numbers id newParentId newName).mono ?_
          rintro _ _ _ ⟨rfl, rfl⟩
          exact hrenumbered

theorem failed_rename_usable_iff {live : Uuid → Prop}
    (hlives : Lives setup anyServer (fun _ _ => False) (fun _ => True) m ())
    {parentIno newParentIno : ℕ} {name newName : Bytes} {e : ClientError} {found : List NodeResponse}
    (hends : Routine.Ends (finding live) (rename setup parentIno name newParentIno newName) m [] (.error e) m' found) :
    Usable live m m' ↔ ¬ Displaced m found :=
  have hm := hlives.matched fun _ _ => trivial
  ((rename_numbers hm parentIno name newParentIno newName).ends hends).usable_iff hm

def twoNames : (c : ClientCall) → c.Reply
  | .findChild _ name =>
    if name = [97] then .ok { emptyReport with id := 8, name := [97] }
    else if name = [98] then .ok { emptyReport with id := 9, name := [98] }
    else .error .notFound
  | .renameNode _ _ _ => .error .backendUnavailable
  | c => (oneFile true c []).1

def noted : (c : ClientCall) → c.Reply → List NodeResponse → List NodeResponse
  | .findChild _ _, .ok node, s => s ++ [node]
  | _, _, s => s

def answering (c : ClientCall) (s : List NodeResponse) : c.Reply × List NodeResponse :=
  (twoNames c, noted c (twoNames c) s)

theorem answering_finding (c : ClientCall) (s : List NodeResponse) :
    (finding fun _ => True).outcome c s (answering c s).1 (answering c s).2 := by
  unfold answering
  cases c with
  | findChild parentId name =>
    cases hanswer : twoNames (.findChild parentId name) with
    | error e => exact rfl
    | ok node => exact ⟨trivial, rfl⟩
  | _ => exact rfl

def bothNumbered : Mount :=
  let after (name : Bytes) (m : Mount) : Mount :=
    (((Act.op (.lookup 1 name)).run bare m).run (fun c _ => (twoNames c, ())) ()).1.2
  after [98] (after [97] (.fresh 7))

theorem bothNumbered_lives : Lives bare anyServer (fun _ _ => False) (fun _ => True) bothNumbered () :=
  .step (.step (.start 7 trivial) (Program.run_ends (fun _ _ => trivial) _ ()))
    (Program.run_ends (fun _ _ => trivial) _ ())

def refused (newName : Bytes) : (Served Unit × Mount) × List NodeResponse :=
  (rename bare 1 [97] 1 newName bothNumbered).run answering []

theorem refused_ends {newName : Bytes} (h : (refused newName).1.1 = .error .backendUnavailable) :
    Routine.Ends (finding fun _ => True) (rename bare 1 [97] 1 newName) bothNumbered [] (.error .backendUnavailable)
      (refused newName).1.2 (refused newName).2 := by
  rw [← h]
  exact Routine.run_ends answering_finding (rename bare 1 [97] 1 newName) bothNumbered []

theorem unused_name_usable : (refused [99]).1.1 = .error .backendUnavailable
    ∧ Usable (fun _ => True) bothNumbered (refused [99]).1.2 := by
  have hfailed : (refused [99]).1.1 = .error .backendUnavailable := by decide
  refine ⟨hfailed, (failed_rename_usable_iff bothNumbered_lives (refused_ends hfailed)).mpr ?_⟩
  rintro ⟨target, replaced, hfound, -⟩
  have hone : (refused [99]).2.length = 1 := by decide
  rw [hfound] at hone
  cases hone

theorem taken_name_unusable : ∃ m m' found, Lives bare anyServer (fun _ _ => False) (fun _ => True) m ()
    ∧ Routine.Ends (finding fun _ => True) (rename bare 1 [97] 1 [98]) m [] (.error .backendUnavailable) m' found
    ∧ ¬ Usable (fun _ => True) m m' := by
  -- The server refuses to put `a` in the place of `b`, and the number of `b` is gone.
  refine ⟨_, _, _, bothNumbered_lives, refused_ends (by decide), fun husable => ?_⟩
  have hgone : (refused [98]).1.2.byIno.lookup 3 = none := by decide
  have hstill := (husable 3 9 (by decide) trivial).1
  exact Option.some_ne_none _ (hstill.symm.trans hgone)

end Dcfs.Fuse
