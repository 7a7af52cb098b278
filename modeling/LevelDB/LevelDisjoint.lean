import LevelDB.Reachable

/-! The files of a level. Below level 0 they are ordered and disjoint as long as no flush
gets between the inputs of a manual compaction: the inputs of an automatic one leave no
gap, but a manual one takes every file of its range, and its outputs may span what lies
between them. -/
namespace LevelDB

variable {K V : Type} [LinearOrder K]

/-- Every level but the first is sorted and disjoint. -/
def Version.LevelsDisjoint (v : Version K) : Prop :=
  ∀ level, 1 ≤ level → (v.files level).Pairwise fun f g =>
    f.smallest < g.smallest ∧ f.largest < g.smallest

theorem Version.Wf.levelsDisjoint {v : Version K} {tables : Tables K V} (wf : v.Wf tables) :
    v.LevelsDisjoint := by
  intro level deep
  refine List.Pairwise.imp_of_mem ?_ (wf.disjoint level deep)
  intro f g hf _ lt
  exact ⟨(wf.holds level f hf).range.trans_lt lt,lt⟩

/-- In every run in which each flush that ends inside a manual compaction is clear of it,
every installed version has disjoint levels. -/
theorem levels_disjoint {o : Options K V} {ls : List (Label K V)} {s : State K V} {db : Db K V}
    (okay : ∀ l ∈ ls, l.ok = true) (clear : State.initial.RunClear o ls)
    (run : State.initial.run o ls = some s) (running : s.process = .running db) :
    db.versions.current.LevelsDisjoint := by
  have inv := inv_initial.run (fun db process => by cases process) okay clear run
  obtain ⟨m,-,ok⟩ := inv.running running
  exact ok.sound.wf.levelsDisjoint

/-- A memtable of its own for the updates, by `TEST_CompactMemTable`. -/
def tableRun (id : Nat) (updates : List (Nat × Option Nat)) : List (Label Nat Nat) :=
  writeRun id updates false 1 ++ [.enter (id + 1) none false,.lead,.makeRoom .ok .ok,.makeRoom .ok .ok]

/-- The low and the high keys are at level 1 and at level 2, a manual compaction of level
1 begins, and a table of `key` alone is flushed before its loop ends. -/
def manualRun (key : Nat) : List (Label Nat Nat) :=
  openRun ++ tableRun 1 [(1,some 1),(2,some 1)] ++ flushRun ++ tableRun 3 [(8,some 1),(9,some 1)] ++ flushRun ++
    tableRun 5 [(1,some 2),(2,some 2)] ++ flushRun ++ tableRun 7 [(8,some 2),(9,some 2)] ++ flushRun ++
    [.requestCompaction 1 none none,.pickManual] ++ tableRun 9 [(key,some 3)] ++ flushRun ++
    List.replicate 8 (.advanceCompaction .ok) ++
    [.finishCompaction .ok,.appendManifest .ok,.syncManifest .ok,.installVersion fun _ => false]

/-- The flushed table lies beyond the inputs. -/
theorem levels_disjoint_clear :
    ∃ s db, State.initial.run smallOptions (manualRun 20) = some s ∧ s.process = .running db ∧
      (db.versions.current.files 2).length = 2 ∧ db.versions.current.LevelsDisjoint := by
  obtain ⟨s,db,run,running,found⟩ := exists_run smallOptions (manualRun 20)
    (fun _ db => (db.versions.current.files 2).length == 2) (by decide +kernel)
  exact ⟨s,db,run,running,by simpa using found,
    levels_disjoint (by decide) (by decide +kernel) run running⟩

/-- The flushed table lies between the inputs, and the output spans it. -/
theorem levels_overlap :
    ∃ s db, (∀ l ∈ manualRun 5, l.ok = true) ∧ State.initial.run smallOptions (manualRun 5) = some s ∧
      s.process = .running db ∧ ¬db.versions.current.LevelsDisjoint := by
  obtain ⟨s,db,run,running,found⟩ := exists_run smallOptions (manualRun 5)
    (fun _ db => decide ¬(db.versions.current.files 2).Pairwise fun (f g : FileMetaData Nat) =>
      f.smallest < g.smallest ∧ f.largest < g.smallest) (by decide +kernel)
  exact ⟨s,db,by decide,run,running,fun disjoint => of_decide_eq_true found (disjoint 2 (by decide))⟩

end LevelDB
