import DartSync.Joining

/-!
# What a follower ends up with

A client that only follows gets a snapshot and after it the updates of the others. The master is the
snapshot with these updates applied to it, first those that the client has seen and then those on
their way (`replica_upToDate`): whoever applies them as they come fails no assertion and has the master
as soon as nothing is on its way.
-/

namespace DartSync

open Runs

/-- A tree after an update has been applied to it. -/
def applyUpdate (fs : Folder) : TrackerMessage → Except Abort Folder
  | .fsUpdate _ additions deletions => patch fs additions deletions
  | _ => .ok fs

namespace Joining

/-- The client itself changes nothing, and whoever leaves takes no file along. -/
def Follows (p : ℤ) (s : Joining) : JoiningEvent → Prop
  | .tracker (.clientUpdate clientID _ _) => clientID ≠ p
  | .tracker (.lostClient peerID) => filesToPrune (filetableRemovePeer s.tracker.filetable peerID) = []
  | _ => True

/-- What the client has seen leads from the snapshot to some tree, and what is on its way leads from
there to the master. -/
def UpToDate (s : Joining) : Prop :=
  ∀ n fs, s.served = some (n, fs) → ∃ view,
    (updatesOf s.seen).foldlM applyUpdate fs = .ok view ∧
      (s.loop.lanes.inFlight .fsUpdate).foldlM applyUpdate view = .ok s.tracker.fs

/-- The updates since the request lead from the snapshot to the master, and none is the client's. -/
structure Replays (p : ℤ) (s : Joining) : Prop where
  le : ∀ n fs, s.served = some (n, fs) → n ≤ s.updates.length
  updates : ∀ n fs, s.served = some (n, fs) →
    (s.updates.drop n).foldlM applyUpdate fs = .ok s.tracker.fs
  others : ∀ message ∈ s.updates, message.author ≠ some p

variable {p : ℤ} {s t : Joining} {ev : JoiningEvent}

theorem replays_initial {dir : Directory} {now : UInt64} {rand : Rand} :
    Replays p (initial dir now rand) where
  le _ _ h := by cases h
  updates _ _ h := by cases h
  others _ h := absurd h List.not_mem_nil

/-- Nothing is pruned. -/
theorem fs_of_pruneFilesystem {fs fs' : Folder} {ft ft' : FileTable} {pt : PeerTable}
    {sent : List (ℤ × TrackerMessage)} (h : pruneFilesystem fs ft pt = .ok (fs', ft', sent))
    (hnone : filesToPrune ft = []) : fs' = fs := by
  obtain ⟨st, hst, h⟩ := bind_eq_ok.mp h
  rw [hnone] at hst
  cases hst
  cases h
  rfl

/-- What a step does to the master, to the record of the updates and to that of the request: it handles
an update, or it leaves the master alone and may serve the request. -/
inductive MasterStep (s : Joining) : JoiningEvent → Joining → Prop
  | updated {clientID : ℤ} {additions deletions : Folder} {t : Joining} :
      patch s.tracker.fs additions deletions = .ok t.tracker.fs →
      t.updates = s.updates ++ [.fsUpdate clientID additions deletions] → t.served = s.served →
      MasterStep s (.tracker (.clientUpdate clientID additions deletions)) t
  | other {ev : JoiningEvent} {t : Joining} :
      (∀ clientID additions deletions, ev ≠ .tracker (.clientUpdate clientID additions deletions)) →
      t.tracker.fs = s.tracker.fs → t.updates = s.updates →
      t.served = s.served ∨ t.served = some (s.updates.length, s.tracker.fs) → MasterStep s ev t

theorem masterStep (hfollows : s.Follows p ev) (h : s.step p ev = .ok t) : MasterStep s ev t := by
  cases ev with
  | client e =>
    obtain ⟨loop, -, h⟩ := bind_eq_ok.mp h
    cases h
    exact .other (by simp) rfl rfl (Or.inl rfl)
  | tracker e =>
    obtain ⟨⟨tracker, sent⟩, hstep, h⟩ := bind_eq_ok.mp h
    cases h
    cases DartSync.trackerStep hstep with
    | joined | dropped | got => exact .other (by simp) rfl rfl (Or.inl rfl)
    | updated hpatch => exact .updated hpatch rfl rfl
    | left _ hprune => exact .other (by simp) (fs_of_pruneFilesystem hprune hfollows) rfl (Or.inl rfl)
    | @requested peerID =>
      by_cases hself : peerID = p
      · have hrecord : s.record p (.masterRequest peerID) =
            { s with served := some (s.updates.length, s.tracker.fs) } := if_pos hself
        rw [hrecord]
        exact .other (by simp) rfl rfl (Or.inr rfl)
      · rw [show s.record p (.masterRequest peerID) = s from if_neg hself]
        exact .other (by simp) rfl rfl (Or.inl rfl)

theorem Replays.step (hs : s.Replays p) (hfollows : s.Follows p ev) (h : s.step p ev = .ok t) :
    t.Replays p := by
  cases masterStep hfollows h with
  | @updated clientID additions deletions t hpatch hupdates hserved =>
    refine ⟨fun n fs h => ?_, fun n fs h => ?_, fun message hmem => ?_⟩
    · rw [hserved] at h
      rw [hupdates, List.length_append]
      exact (hs.le n fs h).trans (Nat.le_add_right _ _)
    · rw [hserved] at h
      rw [hupdates, List.drop_append_of_le_length (hs.le n fs h), List.foldlM_append,
        hs.updates n fs h]
      show (patch s.tracker.fs additions deletions >>= pure) = _
      rw [hpatch]
      rfl
    · rw [hupdates] at hmem
      rcases List.mem_append.mp hmem with hmem | hmem
      · exact hs.others message hmem
      · rw [List.mem_singleton.mp hmem]
        exact fun h => hfollows (Option.some.inj h)
  | other _ hfs hupdates hserved =>
    refine ⟨fun n fs h => ?_, fun n fs h => ?_, by rw [hupdates]; exact hs.others⟩
    · rw [hupdates]
      rcases hserved with hserved | hserved
      · exact hs.le n fs (hserved.symm.trans h)
      · cases hserved.symm.trans h
        exact le_refl _
    · rw [hupdates, hfs]
      rcases hserved with hserved | hserved
      · exact hs.updates n fs (hserved.symm.trans h)
      · -- no update has come since the request
        cases hserved.symm.trans h
        rw [List.drop_length]
        rfl

theorem Replays.updatesOfOthers (hs : s.Replays p) (n : ℕ) :
    updatesOfOthers p (s.updates.drop n) = s.updates.drop n :=
  List.filter_eq_self.mpr fun message hmem =>
    decide_eq_true (hs.others message (List.mem_of_mem_drop hmem))

end Joining

open Joining

/-- **Replica.** A client that sees every update once and makes none itself can follow the master. -/
theorem replica_upToDate {dir : Directory} {now : UInt64} {rand : Rand} {p : ℤ}
    {evs : List JoiningEvent} {s : Joining} (hp : 1 ≤ p)
    (h : Run (Joining.step p) (fun s ev => s.Legal p ev ∧ s.Undisturbed p ev ∧ s.Follows p ev)
      (.initial dir now rand) evs s) : s.UpToDate := by
  have hinv : s.Inv p ∧ s.Replays p :=
    h.invariant (I := fun s => s.Inv p ∧ s.Replays p)
      (fun _ _ _ hs hev hstep => ⟨hs.1.step hp hev.1 hev.2.1 hstep, hs.2.step hev.2.2 hstep⟩)
      ⟨inv_initial hp, replays_initial⟩
  intro n fs hserved
  have hall : (updatesOf s.seen ++ s.loop.lanes.inFlight .fsUpdate).foldlM applyUpdate fs =
      .ok s.tracker.fs := by
    rw [(hinv.1.seesOnce n fs hserved).2, hinv.2.updatesOfOthers, hinv.2.updates n fs hserved]
  rw [List.foldlM_append] at hall
  exact bind_eq_ok.mp hall

namespace JoiningExample

def followsTest (p : ℤ) : JoiningEvent → Bool
  | .tracker (.clientUpdate clientID _ _) => clientID ≠ p
  | .tracker (.lostClient _) => false
  | _ => true

theorem follows_of_test {p : ℤ} (s : Joining) (ev : JoiningEvent) (h : followsTest p ev = true) :
    s.Follows p ev := by
  cases ev with
  | client => trivial
  | tracker e =>
    cases e with
    | newClient | masterRequest | clientGot => trivial
    | lostClient => cases h
    | clientUpdate clientID => exact of_decide_eq_true (p := clientID ≠ p) h

end JoiningExample

open JoiningExample

/-- Client 1 has adopted a folder and applied the update that adds a file to it. -/
theorem replica_upToDate_two : ∃ s, Run (Joining.step 1)
    (fun s ev => s.Legal 1 ev ∧ s.Undisturbed 1 ev ∧ s.Follows 1 ev) start inOrder s ∧
      s.served.isSome = true ∧ (updatesOf s.seen).length = 1 ∧ s.UpToDate := by
  have hrun : (runIf (Joining.step 1)
      (fun s ev => legalTest 1 s ev && (undisturbedTest 1 s ev && followsTest 1 ev))
      start inOrder).any (fun s => s.served.isSome && decide ((updatesOf s.seen).length = 1)) = true := by
    decide +kernel
  obtain ⟨s, hs, htest⟩ := (Option.any_eq_true _ _).mp hrun
  simp only [Bool.and_eq_true, decide_eq_true_eq] at htest
  have hs : Run (Joining.step 1) (fun s ev => s.Legal 1 ev ∧ s.Undisturbed 1 ev ∧ s.Follows 1 ev)
      start inOrder s := by
    refine run_of_runIf (fun s ev h => ?_) hs
    simp only [Bool.and_eq_true] at h
    exact ⟨legal_of_test s ev h.1, undisturbed_of_test s ev h.2.1, follows_of_test s ev h.2.2⟩
  exact ⟨s, hs, htest.1, htest.2, replica_upToDate (by decide) hs⟩

end DartSync
