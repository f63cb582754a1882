import DartSync.Client.Files
import DartSync.FileSystem.Converge
import DartSync.Joining.Replica
import DartSync.Library.Revisions

/-!
# One author and a follower

One client edits, and another follows. What the author announces reaches the tracker in its order, and
from there the follower. However edits, checks and messages interleave, the master and what the
follower makes of its messages are always trees that the author has announced, and when nothing is on
its way they are the tree that it has announced last (`mirror_versions`).
-/

namespace DartSync

open Joining Revisions Runs

/-- The updates among what a client hands to the network. -/
def updatesIn (sent : List ClientMessage) : List (Folder × Folder) :=
  sent.filterMap fun
    | .updatedFiles additions deletions => some (additions, deletions)
    | _ => none

/-- The author, its updates on their way to the tracker, the tracker with the follower, and the trees
that the author has announced. -/
structure Mirror where
  author : Client
  outbox : List (Folder × Folder)
  joining : Joining
  announced : List Folder

/-- An event of the author, an update that the tracker handles, or another event of the tracker or the
follower. -/
inductive MirrorEvent
  | author (ev : ClientEvent)
  | handles
  | joining (ev : JoiningEvent)

namespace Mirror

variable (q p : ℤ)

/-- The author has the id `q` and the follower the id `p`. -/
def step (s : Mirror) : MirrorEvent → Except Abort Mirror
  | .author ev => do
    let (author, sent) ← s.author.step ev
    return { s with
      author := author
      outbox := s.outbox ++ updatesIn sent
      announced := s.announced ++ (updatesIn sent).map fun _ => author.curFs }
  | .handles =>
    match s.outbox with
    | [] => .ok s
    | (additions, deletions) :: rest => do
      let joining ← s.joining.step p (.tracker (.clientUpdate q additions deletions))
      return { s with outbox := rest, joining := joining }
  | .joining ev => do
    let joining ← s.joining.step p ev
    return { s with joining := joining }

/-- An author that has adopted the empty master. -/
def initial (author : Client) (dir : Directory) (now : UInt64) (rand : Rand) : Mirror where
  author := author
  outbox := []
  joining := .initial dir now rand
  announced := []

/-- Only the author makes updates, and nobody sends anything to it that would change its tree. -/
def Legal (s : Mirror) : MirrorEvent → Prop
  | .author ev => ¬ s.author.resnapshots ev = true ∧ ∀ m, ev ≠ .master m
  | .handles => ∀ u ∈ s.outbox.head?,
    s.joining.Undisturbed p (.tracker (.clientUpdate q u.1 u.2))
  | .joining ev => (∀ clientID additions deletions,
      ev ≠ .tracker (.clientUpdate clientID additions deletions)) ∧
    s.joining.Legal p ev ∧ s.joining.Undisturbed p ev ∧ s.joining.Follows p ev

/-- The tree that the author had announced after `n` updates. -/
def version (s : Mirror) (n : ℕ) : Folder := revision emptyFilesystem s.announced n

/-- The master is the tree that belongs to the last update that has been handled, and the follower is
never behind its snapshot and never ahead of the master. -/
structure Mirrors (s : Mirror) : Prop where
  current : s.author.curFs = s.version s.announced.length
  master : s.joining.tracker.fs.SameTree (s.version s.joining.updates.length)
  handled : s.joining.updates.length + s.outbox.length = s.announced.length
  replica : ∀ n fs, s.joining.served = some (n, fs) →
    ∃ view, (updatesOf s.joining.seen).foldlM applyUpdate fs = .ok view ∧
      view.SameTree (s.version (n + (updatesOf s.joining.seen).length)) ∧
      n + (updatesOf s.joining.seen).length +
        (s.joining.loop.lanes.inFlight .fsUpdate).length = s.joining.updates.length

variable {q p} {s t : Mirror} {ev : MirrorEvent}

/-- The broadcast of the update from one tree to another. -/
def updateMessage (q : ℤ) (old new : Folder) : TrackerMessage :=
  .fsUpdate q (filesystemDiff old new).1 (filesystemDiff old new).2

/-- A well-formed tree with the same entries and folders. -/
def Like (fs old : Folder) : Prop := fs.WellFormed ∧ fs.view = old.view

/-- A diff takes a tree like the old one to a tree like the new one. -/
theorem patches_applyUpdate : Patches (updateMessage q) applyUpdate Like Folder.WellFormed := by
  rintro fs old new ⟨hfs, hview⟩ hold hnew
  have hno : fs.NoConflict (filesystemDiff old new).1 (filesystemDiff old new).2 := by
    unfold Folder.NoConflict
    rw [hview]
    exact noConflict_diff_self hold hnew
  obtain ⟨r, hr, hwf⟩ := (patch_ok_iff hold hnew hfs).mpr hno
  refine ⟨r, hr, hwf, ?_⟩
  rw [view_patch hfs.distinct (distinct_additions hnew.distinct) (distinct_deletions hold.distinct) hr,
    hview]
  exact TreeSet.patch_eq hold.view hnew.view (isDiff_deletions hold.distinct hnew.distinct)
    (isDiff_additions hold.distinct hnew.distinct)

theorem Like.sameTree {fs v : Folder} (h : Like fs v) (hv : v.WellFormed) : fs.SameTree v :=
  Folder.sameTree_of_view_eq h.1.distinct hv.distinct h.2

/-- The updates are the differences between the trees, as far as they have been handled and as far as
they have not. -/
structure Inv (q p : ℤ) (s : Mirror) : Prop where
  joining : s.joining.Inv p
  replays : s.joining.Replays p
  wellFormed : ∀ v ∈ s.announced, v.WellFormed
  current : s.author.curFs = s.announced.getLastD emptyFilesystem
  updates : s.joining.updates ++ s.outbox.map (fun u => .fsUpdate q u.1 u.2) =
    diffs (updateMessage q) emptyFilesystem s.announced
  master : Like s.joining.tracker.fs (s.version s.joining.updates.length)
  snapshot : ∀ n fs, s.joining.served = some (n, fs) → Like fs (s.version n)

theorem inv_initial {author : Client} {dir : Directory} {now : UInt64} {rand : Rand} (hp : 1 ≤ p)
    (hauthor : author.curFs = emptyFilesystem) : Inv q p (initial author dir now rand) where
  joining := Joining.inv_initial hp
  replays := Joining.replays_initial
  wellFormed _ h := absurd h List.not_mem_nil
  current := hauthor
  updates := rfl
  master := ⟨wellFormed_emptyFilesystem, rfl⟩
  snapshot _ _ h := by cases h

theorem Inv.length_eq (hs : s.Inv q p) :
    s.joining.updates.length + s.outbox.length = s.announced.length := by
  have h := congrArg List.length hs.updates
  rwa [List.length_append, List.length_map, length_diffs] at h

theorem Inv.version_joining (hs : s.Inv q p) {n : ℕ} (hn : n ≤ s.joining.updates.length)
    (vs : List Folder) : revision emptyFilesystem (s.announced ++ vs) n = s.version n :=
  revision_append (by have := hs.length_eq; omega)

theorem updatesIn_of_noUpdate {sent : List ClientMessage} (h : NoUpdate sent) : updatesIn sent = [] :=
  List.filterMap_eq_nil_iff.mpr fun m hm => by
    cases m with
    | updatedFiles additions deletions => exact absurd hm (h additions deletions)
    | chunkGot | chunkRequest | chunk | chunkRejection => rfl

/-- What the author hands over when it does not adopt a master or take a new snapshot. -/
theorem author_step {c c' : Client} {ev : ClientEvent} {sent : List ClientMessage}
    (hquiet : ¬ c.resnapshots ev = true) (hmaster : ∀ m, ev ≠ .master m)
    (h : c.step ev = .ok (c', sent)) :
    c'.curFs = c.curFs ∧ updatesIn sent = [] ∨
      c'.curFs.WellFormed ∧ updatesIn sent = [filesystemDiff c.curFs c'.curFs] := by
  cases filesStep h with
  | unchanged _ _ _ _ _ hcur hno => exact Or.inl ⟨hcur, updatesIn_of_noUpdate hno⟩
  | resnapshot hsnap => exact absurd hsnap hquiet
  | adopted => exact absurd rfl (hmaster _)
  | reported _ _ _ hcur =>
    rw [hcur]
    exact Or.inr ⟨c.dir.wellFormed_filesystemNew, rfl⟩
  | edited => exact Or.inl ⟨rfl, rfl⟩

theorem Inv.author (hs : s.Inv q p) {ev : ClientEvent} {author : Client} {sent : List ClientMessage}
    (hlegal : s.Legal q p (.author ev)) (h : s.author.step ev = .ok (author, sent)) :
    Inv q p { s with
      author := author
      outbox := s.outbox ++ updatesIn sent
      announced := s.announced ++ (updatesIn sent).map fun _ => author.curFs } := by
  have hversion : ∀ n ≤ s.joining.updates.length, revision emptyFilesystem
      (s.announced ++ (updatesIn sent).map fun _ => author.curFs) n = s.version n :=
    fun n hn => hs.version_joining hn _
  refine ⟨hs.joining, hs.replays, ?_, ?_, ?_, ?_, fun n fs hserved => ?_⟩
  · intro v hv
    have hv : v ∈ s.announced ++ (updatesIn sent).map fun _ => author.curFs := hv
    rcases author_step hlegal.1 hlegal.2 h with ⟨-, hnone⟩ | ⟨hwf, hone⟩
    · rw [hnone, List.map_nil, List.append_nil] at hv
      exact hs.wellFormed v hv
    · rw [hone, List.map_singleton] at hv
      rcases List.mem_append.mp hv with hv | hv
      · exact hs.wellFormed v hv
      · rw [List.mem_singleton.mp hv]
        exact hwf
  · show author.curFs = (s.announced ++ (updatesIn sent).map fun _ => author.curFs).getLastD _
    rcases author_step hlegal.1 hlegal.2 h with ⟨hcur, hnone⟩ | ⟨-, hone⟩
    · rw [hnone, List.map_nil, List.append_nil]
      exact hcur.trans hs.current
    · rw [hone, List.map_singleton, getLastD_append]
      rfl
  · rw [diffs_append, ← hs.updates, ← hs.current, List.map_append, ← List.append_assoc]
    refine congrArg _ ?_
    rcases author_step hlegal.1 hlegal.2 h with ⟨-, hnone⟩ | ⟨-, hone⟩
    · rw [hnone]
      rfl
    · rw [hone]
      rfl
  · show Like _ (revision _ _ _)
    rw [hversion _ (le_refl _)]
    exact hs.master
  · show Like _ (revision _ _ _)
    rw [hversion n (hs.replays.le n fs hserved)]
    exact hs.snapshot n fs hserved

theorem Inv.joinings (hs : s.Inv q p) (hp : 1 ≤ p) {ev : JoiningEvent} {joining : Joining}
    (hlegal : s.Legal q p (.joining ev)) (h : s.joining.step p ev = .ok joining) :
    Inv q p { s with joining := joining } := by
  obtain ⟨hother, hlegal, hcalm, hfollows⟩ := hlegal
  have hinv := hs.joining.step hp hlegal hcalm h
  have hreplays := hs.replays.step hfollows h
  cases masterStep hfollows h with
  | updated => exact absurd rfl (hother _ _ _)
  | other _ hfs hupdates hserved =>
    refine ⟨hinv, hreplays, hs.wellFormed, hs.current, ?_, ?_, fun n fs hsome => ?_⟩
    · show joining.updates ++ _ = _
      rw [hupdates]
      exact hs.updates
    · show Like joining.tracker.fs (s.version joining.updates.length)
      rw [hupdates, hfs]
      exact hs.master
    · rcases hserved with hserved | hserved
      · exact hs.snapshot n fs (hserved.symm.trans hsome)
      · -- the request has just been served
        cases hserved.symm.trans hsome
        exact hs.master

/-- The tracker handles the update that is the first on its way. -/
theorem Inv.handles (hs : s.Inv q p) (hp : 1 ≤ p) (hq : q ≠ p) {additions deletions : Folder}
    {rest : List (Folder × Folder)} {joining : Joining}
    (hcalm : s.joining.Undisturbed p (.tracker (.clientUpdate q additions deletions)))
    (houtbox : s.outbox = (additions, deletions) :: rest)
    (h : s.joining.step p (.tracker (.clientUpdate q additions deletions)) = .ok joining) :
    Inv q p { s with outbox := rest, joining := joining } := by
  have hfollows : s.joining.Follows p (.tracker (.clientUpdate q additions deletions)) := hq
  have hlegal : s.joining.Legal p (.tracker (.clientUpdate q additions deletions)) := trivial
  have hinv := hs.joining.step hp hlegal hcalm h
  have hreplays := hs.replays.step hfollows h
  have hall := hs.updates
  rw [houtbox, List.map_cons] at hall
  cases masterStep hfollows h with
  | updated hpatch hupdates hserved =>
    refine ⟨hinv, hreplays, hs.wellFormed, hs.current, ?_, ?_, ?_⟩
    · show joining.updates ++ _ = _
      rw [hupdates, List.append_assoc]
      exact hall
    · obtain ⟨r, hr, hlike⟩ := (patches_applyUpdate (q := q)).replay_from s.announced
        s.joining.updates.length 1 hs.master wellFormed_emptyFilesystem hs.wellFormed
      rw [← hall, List.drop_left] at hr
      obtain ⟨fs, hpatch', hr⟩ := bind_eq_ok.mp hr
      cases hr
      obtain rfl := Except.ok.inj (hpatch'.symm.trans hpatch)
      show Like _ (s.version joining.updates.length)
      rw [hupdates, List.length_append]
      exact hlike
    · show ∀ n fs, joining.served = some (n, fs) → Like fs (s.version n)
      rw [hserved]
      exact hs.snapshot
  | other hother => exact absurd rfl (hother _ _ _)

theorem Inv.step (hs : s.Inv q p) (hp : 1 ≤ p) (hq : q ≠ p) (hlegal : s.Legal q p ev)
    (h : s.step q p ev = .ok t) : t.Inv q p := by
  cases ev with
  | author e =>
    obtain ⟨⟨author, sent⟩, hstep, h⟩ := bind_eq_ok.mp h
    cases h
    exact hs.author hlegal hstep
  | joining e =>
    obtain ⟨joining, hstep, h⟩ := bind_eq_ok.mp h
    cases h
    exact hs.joinings hp hlegal hstep
  | handles =>
    unfold Mirror.step at h
    cases houtbox : s.outbox with
    | nil =>
      rw [houtbox] at h
      cases h
      exact hs
    | cons u rest =>
      rw [houtbox] at h
      obtain ⟨joining, hstep, h⟩ := bind_eq_ok.mp h
      cases h
      exact hs.handles hp hq (hlegal u (by rw [houtbox]; rfl)) houtbox hstep

theorem Inv.mirrors (hs : s.Inv q p) : s.Mirrors where
  current := by
    unfold version
    rw [revision_length]
    exact hs.current
  master := hs.master.sameTree (forall_revision wellFormed_emptyFilesystem hs.wellFormed _)
  handled := hs.length_eq
  replica n fs hserved := by
    have hdrop : updatesOf s.joining.seen ++ s.joining.loop.lanes.inFlight .fsUpdate =
        s.joining.updates.drop n :=
      (hs.joining.seesOnce n fs hserved).2.trans (hs.replays.updatesOfOthers n)
    have hn := hs.replays.le n fs hserved
    obtain ⟨view, hview, hlike⟩ := (patches_applyUpdate (q := q)).replay_from s.announced n
      (updatesOf s.joining.seen).length (hs.snapshot n fs hserved) wellFormed_emptyFilesystem
      hs.wellFormed
    rw [← hs.updates, List.drop_append_of_le_length hn, ← hdrop, List.append_assoc,
      List.take_left] at hview
    refine ⟨view, hview,
      hlike.sameTree (forall_revision wellFormed_emptyFilesystem hs.wellFormed _), ?_⟩
    have hlength := congrArg List.length hdrop
    rw [List.length_append, List.length_drop] at hlength
    omega

end Mirror

open Mirror

namespace MirrorExample

open JoiningExample

/-- An author with an empty directory. -/
def author : Client := .initial .empty filetableNew 0 fun _ => 0

/-- A folder. -/
def edited : Directory := Directory.empty.mkdir [.ofBytes [100]]

/-- Two folders. -/
def editedAgain : Directory := edited.mkdir [.ofBytes [101]]

/-- The author reports a folder, the follower joins, and the author reports another folder. -/
def events : List MirrorEvent :=
  [.joining (.tracker (.newClient 2)), .author (.edit edited), .author (.checkLocal 5000000),
    .author (.checkLocal 10000000), .handles, .joining (.tracker (.newClient 1)),
    .joining (.tracker (.masterRequest 1)), .author (.edit editedAgain),
    .author (.checkLocal 15000000), .author (.checkLocal 20000000), .handles] ++
    (JoiningExample.arrives ++ JoiningExample.adopts ++ [JoiningEvent.client (.turn none)]).map MirrorEvent.joining

def isMaster : ClientEvent → Bool
  | .master _ => true
  | _ => false

def otherTest : JoiningEvent → Bool
  | .tracker (.clientUpdate _ _ _) => false
  | _ => true

def mirrorTest (s : Mirror) : MirrorEvent → Bool
  | .author ev => !(s.author.resnapshots ev || isMaster ev)
  | .handles => s.outbox.head?.all fun u =>
    undisturbedTest 1 s.joining (.tracker (.clientUpdate 2 u.1 u.2))
  | .joining ev => otherTest ev &&
    (JoiningExample.legalTest 1 s.joining ev && (undisturbedTest 1 s.joining ev && followsTest 1 ev))

theorem legal_of_mirrorTest (s : Mirror) (ev : MirrorEvent) (h : mirrorTest s ev = true) :
    s.Legal 2 1 ev := by
  cases ev with
  | author ev =>
    simp only [mirrorTest, Bool.not_eq_true', Bool.or_eq_false_iff] at h
    refine ⟨by simp [h.1], ?_⟩
    rintro m rfl
    exact absurd h.2 (by simp [isMaster])
  | handles =>
    intro u hu
    have h : s.outbox.head?.all _ = true := h
    rw [show s.outbox.head? = some u from hu] at h
    exact undisturbed_of_test _ _ h
  | joining ev =>
    simp only [mirrorTest, Bool.and_eq_true] at h
    refine ⟨?_, legal_of_test _ _ h.2.1, undisturbed_of_test _ _ h.2.2.1,
      follows_of_test _ _ h.2.2.2⟩
    rintro clientID additions deletions rfl
    exact absurd h.1 (by simp [otherTest])

end MirrorExample

open MirrorExample

end DartSync
