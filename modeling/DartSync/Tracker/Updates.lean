import DartSync.Library.Runs
import DartSync.Tracker

/-!
# Concurrent updates of the master

Each update is a diff against a master that its client had adopted, which need not be the current
one. `updateNetwork` applies it all the same. As long as no update conflicts with the master it is
applied to, every update is applied and the master stays well formed; an update that adds into a
folder deleted in the meantime fails the last assertion of `folder_add`.
-/

namespace DartSync

open Runs

/-- An update from some earlier master to a well-formed tree. -/
def IsUpdate (_ : TrackerRun) (e : RunEvent) : Prop :=
  ∃ clientID age edited, e = .update clientID age edited ∧ edited.WellFormed

/-- Such an update that does not conflict with the current master. -/
def IsCompatibleUpdate (s : TrackerRun) (e : RunEvent) : Prop :=
  ∃ clientID age edited, e = .update clientID age edited ∧ edited.WellFormed ∧
    s.tracker.fs.NoConflict (filesystemDiff (s.base age) edited).1
      (filesystemDiff (s.base age) edited).2

/-- Every master is well formed. -/
structure MastersWellFormed (s : TrackerRun) : Prop where
  current : s.tracker.fs ∈ s.masters
  wellFormed : ∀ fs ∈ s.masters, fs.WellFormed

variable {s t : TrackerRun} {e : RunEvent} {es : List RunEvent}

theorem mastersWellFormed_initial : MastersWellFormed .initial where
  current := List.mem_singleton.mpr rfl
  wellFormed fs h := by
    rw [List.mem_singleton.mp h]
    exact wellFormed_emptyFilesystem

/-- A compatible update is applied and leaves a well-formed master. -/
theorem MastersWellFormed.exists_step (hs : MastersWellFormed s) (he : IsCompatibleUpdate s e) :
    ∃ t, s.step e = .ok t ∧ MastersWellFormed t := by
  obtain ⟨id, age, edited, rfl, hedited, hno⟩ := he
  have hbase := hs.wellFormed _ (s.base_mem hs.current age)
  obtain ⟨fs, hfs, hwf⟩ :=
    (patch_ok_iff hbase hedited (hs.wellFormed _ hs.current)).mpr hno
  refine ⟨_, TrackerRun.step_eq_ok.mpr
    ⟨_, _, updateNetwork_eq_ok.mpr ⟨fs, hfs, rfl, rfl⟩, rfl⟩, List.mem_cons_self, ?_⟩
  intro m hm
  rcases List.mem_cons.mp hm with rfl | hm
  exacts [hwf, hs.wellFormed m hm]

theorem MastersWellFormed.step (hs : MastersWellFormed s) (he : IsCompatibleUpdate s e)
    (ht : s.step e = .ok t) : MastersWellFormed t := by
  obtain ⟨u, hu, hwf⟩ := hs.exists_step he
  cases hu.symm.trans ht
  exact hwf

/-- **Compatible updates.** In a run of updates none of which conflicts with the master it is
applied to, the master is well formed after every update and no assertion fails at the next. -/
theorem master_wellFormed_of_compatible
    (h : Run TrackerRun.step IsCompatibleUpdate .initial es s) :
    s.tracker.fs.WellFormed ∧ ∀ e, IsCompatibleUpdate s e → ∃ t, s.step e = .ok t := by
  have hs : MastersWellFormed s :=
    h.invariant (fun _ _ _ hs he ht => hs.step he ht) mastersWellFormed_initial
  refine ⟨hs.wellFormed _ hs.current, fun e he => ?_⟩
  obtain ⟨t, ht, -⟩ := hs.exists_step he
  exact ⟨t, ht⟩

/-! ## Runs of updates -/

namespace UpdateRun

/-- A folder `d`. -/
def withFolder : Folder := ⟨.empty, [marker (.ofBytes [100])], [⟨.ofBytes [100], [], []⟩]⟩

/-- A folder `d` with a file `y`. -/
def withFile : Folder :=
  ⟨.empty, [marker (.ofBytes [100])], [⟨.ofBytes [100], [⟨.ofBytes [121], 1, 1, 0⟩], []⟩]⟩

end UpdateRun

open UpdateRun

/-- The first update cannot conflict. -/
theorem master_wellFormed_after_first_update :
    ∃ s, Run TrackerRun.step IsCompatibleUpdate .initial [.update 1 0 withFolder] s ∧
      s.tracker.fs.WellFormed := by
  have he : IsCompatibleUpdate .initial (.update 1 0 withFolder) :=
    ⟨1, 0, withFolder, rfl, by decide, noConflict_diff_self wellFormed_emptyFilesystem (by decide)⟩
  obtain ⟨s, hs, -⟩ := mastersWellFormed_initial.exists_step he
  have hrun : Run TrackerRun.step IsCompatibleUpdate .initial [.update 1 0 withFolder] s :=
    .cons he hs (.nil s)
  exact ⟨s, hrun, (master_wellFormed_of_compatible hrun).1⟩

/-- The test of `IsUpdate`. -/
def isUpdateTest (_ : TrackerRun) : RunEvent → Bool
  | .update _ _ edited => decide edited.WellFormed
  | _ => false

theorem isUpdate_of_test (s : TrackerRun) (e : RunEvent) (h : isUpdateTest s e = true) :
    IsUpdate s e := by
  cases e with
  | update id age edited => exact ⟨id, age, edited, rfl, of_decide_eq_true h⟩
  | _ => cases h

/-- Peer 1 adds a folder and deletes it again; peer 2, which has seen the first update only, adds a
file inside: `assert(found)` fails. -/
theorem update_into_deleted_folder :
    ∃ s, Run TrackerRun.step IsUpdate .initial
        [.update 1 0 withFolder, .update 1 0 emptyFilesystem] s ∧
      IsUpdate s (.update 2 1 withFile) ∧ s.step (.update 2 1 withFile) = .error .found := by
  have hrun : (runIf TrackerRun.step isUpdateTest .initial
      [.update 1 0 withFolder, .update 1 0 emptyFilesystem]).any (fun s =>
        failsWith .found (s.step (.update 2 1 withFile))) = true := by decide +kernel
  obtain ⟨s, hs, hstep⟩ := (Option.any_eq_true _ _).mp hrun
  exact ⟨s, run_of_runIf isUpdate_of_test hs, ⟨2, 1, withFile, rfl, by decide⟩,
    failsWith_iff.mp hstep⟩

end DartSync
