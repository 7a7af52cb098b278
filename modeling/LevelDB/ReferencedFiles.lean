import LevelDB.Core
import LevelDB.ManifestReplay

/-! The files that are needed. A version is kept if each of its files has a number that
names it alone and a whole, synced table on the disk; a manifest restores a version if
it would be recovered and kept. Both survive whatever is done to other files. -/
namespace LevelDB

variable {K V : Type} [LinearOrder K]

/-- The number names the file, and its table is on the disk, synced. -/
structure FileMetaData.Kept (o : Options K V) (file : Nat → Option (FileMetaData K)) (d : Disk K V)
    (f : FileMetaData K) : Prop where
  named : file f.number = some f
  table : ∃ entries, d.tables f.number = some ⟨entries,true⟩ ∧ outputFile o f.number entries = some f

structure Version.Kept (o : Options K V) (file : Nat → Option (FileMetaData K)) (d : Disk K V)
    (v : Version K) : Prop where
  files : ∀ l, ∀ f ∈ v.files l, f.Kept o file d
  levels : ∀ l, kNumLevels ≤ l → v.files l = []
  unique : ∀ l l', ∀ f ∈ v.files l, ∀ g ∈ v.files l', f.number = g.number → l = l'
  inOrder : ∀ l, InOrder (v.files l)

/-- The files an edit adds are named by their numbers; one that is in the version is moved. -/
structure VersionEdit.Places (file : Nat → Option (FileMetaData K)) (e : VersionEdit K) (v : Version K) :
    Prop where
  named : ∀ n ∈ e.newFiles, file n.2.number = some n.2
  level : ∀ n ∈ e.newFiles, n.1 < kNumLevels
  moved : ∀ n ∈ e.newFiles, ∀ l, ∀ g ∈ v.files l, g.number = n.2.number →
    l ≠ n.1 ∧ (l,g.number) ∈ e.deletedFiles
  once : ∀ n ∈ e.newFiles, ∀ n' ∈ e.newFiles, n.2.number = n'.2.number → n.1 = n'.1

section Kept
variable {o : Options K V} {file file' : Nat → Option (FileMetaData K)} {d d' : Disk K V} {v : Version K}
  {e : VersionEdit K}

omit [LinearOrder K] in
theorem FileMetaData.Kept.frame {f : FileMetaData K} (kept : f.Kept o file d)
    (tables : d'.tables f.number = d.tables f.number) (names : file' f.number = file f.number) :
    f.Kept o file' d' :=
  ⟨names.trans kept.named,by rw [tables]; exact kept.table⟩

theorem Version.Kept.frame (kept : v.Kept o file d)
    (tables : ∀ l, ∀ f ∈ v.files l, d'.tables f.number = d.tables f.number)
    (names : ∀ l, ∀ f ∈ v.files l, file' f.number = file f.number) : v.Kept o file' d' :=
  ⟨fun l f hf => (kept.files l f hf).frame (tables l f hf) (names l f hf),kept.levels,kept.unique,kept.inOrder⟩

theorem Version.empty_kept (o : Options K V) (file : Nat → Option (FileMetaData K)) (d : Disk K V) :
    Version.empty.Kept o file d :=
  ⟨fun _ _ hf => absurd hf List.not_mem_nil,fun _ _ => rfl,fun _ _ _ hf => absurd hf List.not_mem_nil,
    fun _ => List.Pairwise.nil⟩

theorem Version.Kept.mem_numbers (kept : v.Kept o file d) {l : Nat} {f : FileMetaData K} (member : f ∈ v.files l) :
    f.number ∈ v.numbers := by
  have shallow : l < kNumLevels := by
    by_contra deep
    rw [kept.levels l (not_lt.mp deep)] at member
    cases member
  exact List.mem_flatMap.mpr ⟨l,List.mem_range.mpr shallow,List.mem_map_of_mem member⟩

omit [LinearOrder K] in
theorem Version.exists_of_mem_numbers {n : Nat} (member : n ∈ v.numbers) : ∃ l, ∃ f ∈ v.files l, f.number = n := by
  obtain ⟨l,-,there⟩ := List.mem_flatMap.mp member
  obtain ⟨f,hf,same⟩ := List.mem_map.mp there
  exact ⟨l,f,hf,same⟩

omit [LinearOrder K] in
theorem VersionEdit.Places.adds (places : e.Places file v) : e.Adds file v :=
  ⟨places.named,fun n hn g hg same => (places.moved n hn n.1 g hg same).1 rfl⟩

omit [LinearOrder K] in
theorem VersionEdit.Adds.fresh (adds : e.Adds file v) : e.FreshFor (Builder.new v) :=
  ⟨fun l f hf g hg => adds.absent (l,f) ((mem_newAt e l f).mp hf) g hg,fun _ _ _ _ hg => absurd hg List.not_mem_nil,
    fun l f hf g hg => eq_of_named (adds.named (l,f) ((mem_newAt e l f).mp hf)) (adds.named (l,g) ((mem_newAt e l g).mp hg))⟩

/-- The version after an edit is kept if the new files are. -/
theorem Version.Kept.apply (kept : v.Kept o file d) (places : e.Places file v)
    (new : ∀ n ∈ e.newFiles, n.2.Kept o file d) : (v.apply e).Kept o file d := by
  obtain ⟨order,spec⟩ := v.mem_apply e kept.inOrder places.adds.fresh
  have members : ∀ l f, f ∈ (v.apply e).files l ↔ (l,f) ∈ e.newFiles ∨ f ∈ v.files l ∧ (l,f.number) ∉ e.deletedFiles := by
    intro l f
    rw [spec,mem_newAt,mem_deletedAt]
  refine ⟨?_,?_,?_,order⟩
  · intro l f hf
    rcases (members l f).mp hf with added | ⟨old,-⟩
    · exact new (l,f) added
    · exact kept.files l f old
  · intro l deep
    refine List.eq_nil_iff_forall_not_mem.mpr fun f hf => ?_
    rcases (members l f).mp hf with added | ⟨old,-⟩
    · exact absurd (places.level (l,f) added) (not_lt.mpr deep)
    · rw [kept.levels l deep] at old
      cases old
  · intro l l' f hf g hg same
    rcases (members l f).mp hf with added | ⟨old,stays⟩ <;> rcases (members l' g).mp hg with added' | ⟨old',stays'⟩
    · exact places.once (l,f) added (l',g) added' same
    · exact absurd (places.moved (l,f) added l' g old' same.symm).2 stays'
    · exact absurd (places.moved (l',g) added' l f old same).2 stays
    · exact kept.unique l l' f old g old' same

end Kept

/-- The records, read as far as here, give a version that is kept. -/
structure Restores (o : Options K V) (file : Nat → Option (FileMetaData K)) (d : Disk K V) (number : Nat)
    (records : List (ManifestRecord K V)) : Prop where
  tracks : (recoverRecords records).Tracks file (recoverRecords records).version
  kept : (recoverRecords records).version.Kept o file d
  complete : (recoverRecords records).versionSet.isSome
  prev : (recoverRecords records).prevLogNumber.getD 0 = 0
  log : (recoverRecords records).log < (recoverRecords records).next
  manifest : number < (recoverRecords records).next
  used : ∀ n, (recoverRecords records).builder.Uses n → n < (recoverRecords records).next

section Restores
variable {o : Options K V} {file file' : Nat → Option (FileMetaData K)} {d d' : Disk K V} {number : Nat}
  {records : List (ManifestRecord K V)}

theorem Recovered.Tracks.uses {r : Recovered K} {v : Version K} (tracks : r.Tracks file v) {l : Nat}
    {f : FileMetaData K} (member : f ∈ v.files l) : r.builder.Uses f.number := by
  rw [← tracks.version,mem_saveTo,tracks.base] at member
  rcases member.1 with old | new
  · cases old
  · exact ⟨l,f,new,rfl⟩

/-- Which number names which file may change where the records use none. -/
theorem Recovered.Tracks.rename {r : Recovered K} {v : Version K} (tracks : r.Tracks file v)
    (names : ∀ n, r.builder.Uses n → file' n = file n) : r.Tracks file' v :=
  ⟨tracks.base,tracks.builder,fun l f hf => (names f.number ⟨l,f,hf,rfl⟩).trans (tracks.named l f hf),tracks.version⟩

theorem Restores.frame (restores : Restores o file d number records)
    (tables : ∀ n, (recoverRecords records).builder.Uses n → n ∈ (recoverRecords records).version.numbers →
      d'.tables n = d.tables n)
    (names : ∀ n, (recoverRecords records).builder.Uses n → file' n = file n) : Restores o file' d' number records :=
  ⟨restores.tracks.rename names,
    restores.kept.frame (fun _ _ hf => tables _ (restores.tracks.uses hf) (restores.kept.mem_numbers hf))
      fun _ _ hf => names _ (restores.tracks.uses hf),
    restores.complete,restores.prev,restores.log,restores.manifest,restores.used⟩

/-- `VersionSet::Recover` succeeds. -/
theorem Restores.versionSet (restores : Restores o file d number records) :
    (recoverRecords records).versionSet = some ⟨(recoverRecords records).version,
      (recoverRecords records).next + 1,(recoverRecords records).next,(recoverRecords records).last,
      (recoverRecords records).log,0,(recoverRecords records).compactPointer⟩ := by
  have complete := restores.complete
  have prev := restores.prev
  revert complete prev
  generalize recoverRecords records = r
  obtain ⟨builder,pointer,log,prevLog,next,last⟩ := r
  intro complete prev
  simp only at prev
  cases log <;> cases next <;> cases last <;>
    simp_all [Recovered.versionSet,Recovered.version,Recovered.next,Recovered.log,Recovered.last]

/-- A record with an edit of `LogAndApply` is read after the others. -/
theorem Restores.append {v : Version K} {r : ManifestRecord K V} {log next last : Nat}
    (tracks : (recoverRecords records).Tracks file v) (kept : v.Kept o file d)
    (prev : (recoverRecords records).prevLogNumber.getD 0 = 0)
    (used : ∀ n, (recoverRecords records).builder.Uses n → n < next) (completes : r.edit.Completes log next last)
    (places : r.edit.Places file v) (new : ∀ n ∈ r.edit.newFiles, n.2.Kept o file d ∧ n.2.number < next)
    (isLog : log < next) (manifest : number < next) :
    Restores o file d number (records ++ [r]) ∧ (recoverRecords (records ++ [r])).version = v.apply r.edit ∧
      (recoverRecords (records ++ [r])).log = log ∧ (recoverRecords (records ++ [r])).next = next ∧
      (recoverRecords (records ++ [r])).last = last := by
  have recovered := recoverRecords_append records r
  have after := tracks.step places.adds
  have version : ((recoverRecords records).step r.edit).version = v.apply r.edit := after.version
  have logIs : ((recoverRecords records).step r.edit).log = log := by
    simp [Recovered.log,Recovered.step,completes.log]
  have nextIs : ((recoverRecords records).step r.edit).next = next := by
    simp [Recovered.next,Recovered.step,completes.next]
  have lastIs : ((recoverRecords records).step r.edit).last = last := by
    simp [Recovered.last,Recovered.step,completes.last]
  have fresh : r.edit.FreshFor (recoverRecords records).builder := by
    refine ⟨fun l f _ g hg => ?_,fun l f hf g hg => ?_,places.adds.fresh.named⟩
    · rw [tracks.base] at hg
      cases hg
    · exact eq_of_named (places.named (l,f) ((mem_newAt _ l f).mp hf)) (tracks.named l g hg)
  rw [recovered]
  refine ⟨⟨?_,?_,?_,?_,?_,?_,?_⟩,version,logIs,nextIs,lastIs⟩ <;> rw [recovered]
  · rw [version]
    exact after
  · rw [version]
    exact kept.apply places fun n hn => (new n hn).1
  · simp [Recovered.versionSet,Recovered.step,completes.log,completes.next,completes.last]
  · have same := completes.prev
    cases isPrev : r.edit.prevLogNumber with
    | none => simpa [Recovered.step,isPrev] using prev
    | some n => simpa [Recovered.step,isPrev] using same
  · rw [logIs,nextIs]
    exact isLog
  · rw [nextIs]
    exact manifest
  · rw [nextIs]
    rintro n ⟨l,f,hf,rfl⟩
    rcases ((tracks.builder.apply_added fresh l).2 f).mp hf with added | old
    · exact (new (l,f) ((mem_newAt _ l f).mp added)).2
    · exact used f.number ⟨l,f,old,rfl⟩

end Restores

/-- The manifest that `CURRENT` names restores a version wherever a crash may cut it. -/
structure Disk.Files (o : Options K V) (file : Nat → Option (FileMetaData K)) (d : Disk K V) (number : Nat)
    (m : ManifestFile K V) : Prop where
  named : d.currentFile = some (.line number)
  manifest : d.manifests number = some m
  synced : m.synced ≤ m.records.length
  restores : ∀ k, m.synced ≤ k → k ≤ m.records.length → Restores o file d number (m.records.take k)
  increasing : (d.logs.map (·.number)).Pairwise (· < ·)
  positive : ∀ l ∈ d.logs, 0 < l.number

section Disk
variable {o : Options K V} {file file' : Nat → Option (FileMetaData K)} {d d' : Disk K V} {number : Nat}
  {m : ManifestFile K V}

theorem Disk.Files.current (files : d.Files o file number m) : d.current = some number := Disk.current_line files.named

theorem Disk.Files.whole (files : d.Files o file number m) : Restores o file d number m.records := by
  simpa using files.restores _ files.synced le_rfl

/-- The records of a manifest that is cut use no more numbers. -/
theorem Disk.Files.uses (files : d.Files o file number m) {k n : Nat}
    (uses : (m.upTo k).builder.Uses n) : n < (recoverRecords m.records).next :=
  files.whole.used n (uses_of_take uses)

theorem Disk.Files.frame (files : d.Files o file number m) (current : d'.currentFile = d.currentFile)
    (manifest : d'.manifests number = d.manifests number)
    (logs : (d'.logs.map (·.number)).Sublist (d.logs.map (·.number)))
    (tables : ∀ k n, m.synced ≤ k → k ≤ m.records.length → n ∈ (m.upTo k).version.numbers → d'.tables n = d.tables n)
    (names : ∀ n, (recoverRecords m.records).builder.Uses n → file' n = file n) : d'.Files o file' number m := by
  refine ⟨current.trans files.named,manifest.trans files.manifest,files.synced,?_,files.increasing.sublist logs,?_⟩
  · intro k low high
    exact (files.restores k low high).frame (fun n _ member => tables k n low high member)
      fun n uses => names n (uses_of_take uses)
  · intro l hl
    obtain ⟨old,ho,same⟩ := List.mem_map.mp (logs.subset (List.mem_map_of_mem hl))
    rw [← same]
    exact files.positive old ho

/-- Tables with numbers that name no file may change. -/
theorem Disk.Files.free {S : Nat → Prop} (files : d.Files o file number m) (touches : d.Touches d' S)
    (free : ∀ n, S n → file n = none) : d'.Files o file number m := by
  refine files.frame touches.current (by rw [touches.manifests]) (by rw [touches.logs]) ?_ fun _ _ => rfl
  intro k n low high member
  refine touches.tables n fun hit => ?_
  obtain ⟨l,f,hf,rfl⟩ := Version.exists_of_mem_numbers member
  have := ((files.restores k low high).kept.files l f hf).named
  rw [free _ hit] at this
  cases this

theorem Version.Kept.free {S : Nat → Prop} {v : Version K} (kept : v.Kept o file d) (touches : d.Touches d' S)
    (free : ∀ n, S n → file n = none) : v.Kept o file d' := by
  refine kept.frame (fun l f hf => touches.tables _ fun hit => ?_) fun _ _ _ => rfl
  have := (kept.files l f hf).named
  rw [free _ hit] at this
  cases this

/-- Synced tables survive a crash. -/
theorem Version.Kept.crash {v : Version K} (kept : v.Kept o file d) (cut : Cut) : v.Kept o file (d.crash cut) := by
  refine kept.frame (fun l f hf => ?_) fun _ _ _ => rfl
  obtain ⟨entries,there,-⟩ := (kept.files l f hf).table
  simp [Disk.crash,there,TableFile.cut]

theorem Disk.Files.crash (files : d.Files o file number m) (cut : Cut) :
    (d.crash cut).Files o file number (m.cut (cut (.manifest number))) := by
  have length := cut_length m (cut (.manifest number)) files.synced
  have logs : (d.crash cut).logs.map (·.number) = d.logs.map (·.number) := by
    simp [Disk.crash,Function.comp_def,LogFile.cut]
  refine ⟨Disk.crash_line files.named cut,by simp [Disk.crash,files.manifest],length.1,?_,by rw [logs]; exact files.increasing,?_⟩
  · intro k low high
    rw [cut_take m _ k high]
    have restores := files.restores k low (high.trans length.2)
    refine restores.frame (fun n _ member => ?_) fun _ _ => rfl
    obtain ⟨l,f,hf,rfl⟩ := Version.exists_of_mem_numbers member
    obtain ⟨entries,there,-⟩ := (restores.kept.files l f hf).table
    simp [Disk.crash,there,TableFile.cut]
  · intro l hl
    obtain ⟨old,ho,-,same,-⟩ := mem_crash_logs hl
    rw [same]
    exact files.positive old ho

end Disk

end LevelDB
