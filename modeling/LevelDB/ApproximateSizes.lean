import LevelDB.Comparator
import LevelDB.EditCodec

/-! Approximate sizes (`GetApproximateSizes`): how many bytes the tables of a version have before
a key. A table answers with the place of the block that the key would be in. -/
namespace LevelDB.Sstable

section Offsets
variable {T : Type} [LinearOrder T]

/-- `Table::ApproximateOffsetOf`. Past the last key the metaindex block is near the end. -/
def Table.approximateOffsetOf (o : Options T) (t : Table) (key : Bytes) : Nat :=
  let ops := DataIterator.ops o.rank
  match ops.current (ops.seek (o.rank key) t.indexBlock.newIterator) with
  | none => t.metaindexHandle.offset
  | some (_,value) =>
    match BlockHandle.decode value with
    | .ok (handle,_) => handle.offset
    | .error _ => t.metaindexHandle.offset

/-- `TableCache::FindTable`; tables do not change, so what is cached is what is in the file. -/
def findTable (o : Options T) (env : Nat → Option Bytes) (number fileSize : Nat) : Option Table :=
  (env number).bind fun file => if file.length < fileSize then none else (Table.open o (file.take fileSize)).toOption

/-- A version with the keys of its files as they are stored. -/
structure Version where
  files : Nat → List Manifest.FileMetaData

/-- A sum of 64 bits. -/
def uint64 (n : Nat) : Nat := n % 2^64

variable (wrap : Nat → Nat) (icmp : Comparator) (o : Options T) (env : Nat → Option Bytes)

/-- The loop over the files of a level. The sums are those of `uint64`, or go on without end. -/
def levelOffset (level : Nat) (ikey : Bytes) : List Manifest.FileMetaData → Nat → Nat
  | [], result => result
  | f :: rest, result =>
    if (icmp.compare f.largest ikey).isLE then levelOffset level ikey rest (wrap (result + f.fileSize))
    else if icmp.compare f.smallest ikey = .gt then
      if 0 < level then result else levelOffset level ikey rest result
    else
      let offset := (findTable o env f.number f.fileSize).elim 0 (·.approximateOffsetOf o ikey)
      levelOffset level ikey rest (wrap (result + offset))

/-- `VersionSet::ApproximateOffsetOf`. -/
def Version.approximateOffsetOf (v : Version) (ikey : Bytes) : Nat :=
  (List.range kNumLevels).foldl (fun result level => levelOffset wrap icmp o env level ikey (v.files level) result) 0

/-- `DBImpl::GetApproximateSizes`. -/
def Version.getApproximateSizes (v : Version) (ranges : List (Bytes × Bytes)) : List Nat :=
  ranges.map fun range =>
    let start := v.approximateOffsetOf wrap icmp o env (range.1 ++ seekTag)
    let limit := v.approximateOffsetOf wrap icmp o env (range.2 ++ seekTag)
    if start ≤ limit then limit - start else 0

end Offsets

section Tables
variable {T : Type} [LinearOrder T] {o : Options T} {b : TableBuilder} {file : Bytes} {done : List Written}
  {footer : Footer}

/-- In a list of places in order the first that a condition leaves moves on with the condition. -/
theorem find_offset_mono {A : Type} (list : List A) (key : A → T) (offset : A → Nat) (last : Nat)
    (ordered : list.Pairwise fun v w => offset v < offset w) (bounded : ∀ w ∈ list, offset w ≤ last) {s t : T}
    (le : s ≤ t) : (list.find? fun w => !decide (key w < s)).elim last offset ≤
      (list.find? fun w => !decide (key w < t)).elim last offset := by
  induction list with
  | nil => exact le_refl last
  | cons w rest ih =>
    obtain ⟨first,ordered⟩ := List.pairwise_cons.mp ordered
    by_cases before : key w < s
    · have passed := before.trans_le le
      simp only [List.find?_cons,before,passed,decide_true,Bool.not_true]
      exact ih ordered fun v later => bounded v (List.mem_cons_of_mem w later)
    · simp only [List.find?_cons,before,decide_false,Bool.not_false,Option.elim_some]
      by_cases passed : key w < t
      · simp only [passed,decide_true,Bool.not_true]
        cases found : rest.find? fun w => !decide (key w < t) with
        | none => exact bounded w List.mem_cons_self
        | some v => exact (first v (List.mem_of_find?_eq_some found)).le
      · simp only [passed,decide_false,Bool.not_false,Option.elim_some,le_refl]

theorem Finished.approximateOffsetOf (finished : Finished o b file done footer) (small : file.length < 2^64)
    {l : BlockLayout} (ok : l.Ok) (entries : l.entries = done.map Written.entry) {t : Table}
    (index : t.indexBlock = Block.open l.bytes) (key : Bytes) : t.approximateOffsetOf o key =
      (done.find? fun w => !decide (o.rank w.key < o.rank key)).elim t.metaindexHandle.offset (·.handle.offset) := by
  have ordered := finished.sorted_index
  rw [← entries] at ordered
  have cursor := DataIterator.isCursor ok ordered
  have stands := cursor.seek (o.rank key) (DataIterator.newIterator_at ok)
  have current := cursor.current stands
  rw [← List.find?_eq_getElem?_findIdx,entries,List.find?_map] at current
  simp only [Table.approximateOffsetOf,index,current]
  cases found : done.find? fun w => !decide (o.rank w.key < o.rank key) with
  | none =>
    have none_ : done.find? ((fun e => !decide (o.rank e.1 < o.rank key)) ∘ Written.entry) = none := found
    simp only [none_,Option.map_none,Option.elim_none]
  | some w =>
    have some_ : done.find? ((fun e => !decide (o.rank e.1 < o.rank key)) ∘ Written.entry) = some w := found
    have within := (finished.stored w (List.mem_of_find?_eq_some found)).within
    have decoded := BlockHandle.decode_encode (h := w.handle) (by omega) (by omega) []
    rw [List.append_nil] at decoded
    simp only [some_,Option.map_some,Written.entry,decoded,Option.elim_some]

/-- The offsets in a table grow with the keys, up to the end of the file. -/
theorem table_offsets (o : Options T) (lawful : o.Lawful) (calls : List Call)
    (sorted : (added calls).Pairwise fun x y => o.rank x.1 < o.rank y.1) (fits : FitsFormat o calls) :
    ∃ t, Table.open o (buildTable o calls) = .ok t ∧
      (∀ a b, o.rank a ≤ o.rank b → t.approximateOffsetOf o a ≤ t.approximateOffsetOf o b) ∧
      ∀ a, t.approximateOffsetOf o a ≤ (buildTable o calls).length := by
  obtain ⟨p,done,footer,_,_,finished,behind,_⟩ := run_finished lawful False sorted
    fun b member => ⟨fits.data b member,False.elim⟩
  obtain ⟨l,laid,entries⟩ := finished.holds
  have finish := laid.finish
  have index := fits.index
  rw [finish] at index
  have ok : l.Ok := ⟨laid.shape,index⟩
  obtain ⟨filter,same⟩ := readMeta_eq o footer (Table.mk (buildTable o calls) footer.metaindexHandle none
    (Block.open (((TableBuilder.run o calls).flush o).finishIndex o).indexBlock.finish))
  refine ⟨_,finished.open fits.file,?_⟩
  have opened : (Table.mk (buildTable o calls) footer.metaindexHandle none
      (Block.open (((TableBuilder.run o calls).flush o).finishIndex o).indexBlock.finish)).readMeta o footer =
      ⟨buildTable o calls,footer.metaindexHandle,filter,Block.open l.bytes⟩ := by rw [same,finish]
  have offset := fun key => finished.approximateOffsetOf fits.file ok entries
    (t := ⟨buildTable o calls,footer.metaindexHandle,filter,Block.open l.bytes⟩) rfl key
  simp only [opened,offset]
  constructor
  · intro a b le
    exact find_offset_mono done (fun w => o.rank w.key) (·.handle.offset) footer.metaindexHandle.offset
      finished.ordered behind le
  · intro a
    have whole := finished.metaindex.within
    cases found : done.find? fun w => !decide (o.rank w.key < o.rank a) with
    | none =>
      simp only [Option.elim_none]
      omega
    | some w =>
      have first := behind w (List.mem_of_find?_eq_some found)
      simp only [Option.elim_some]
      omega

end Tables

/-- The file has the table of these calls, and the meta data says how long it is. -/
structure TableFile {T : Type} [LinearOrder T] (o : Options T) (env : Nat → Option Bytes) (f : Manifest.FileMetaData)
    (calls : List Call) : Prop where
  sorted : (added calls).Pairwise fun x y => o.rank x.1 < o.rank y.1
  fits : FitsFormat o calls
  stored : env f.number = some (buildTable o calls)
  size : f.fileSize = (buildTable o calls).length

def Version.Made {T : Type} [LinearOrder T] (o : Options T) (env : Nat → Option Bytes) (v : Version) : Prop :=
  ∀ level, ∀ f ∈ v.files level, ∃ calls, TableFile o env f calls

/-- The tables are in the order of the comparator. -/
abbrev Ranked {T : Type} [LinearOrder T] (icmp : Comparator) (o : Options T) : Prop :=
  ∀ a b, icmp.compare a b = compare (o.rank a) (o.rank b)

/-- Going on from a sum for each file. -/
def bytesOf (files : List Manifest.FileMetaData) (total : Nat) : Nat := files.foldl (fun total f => total + f.fileSize) total

def Version.bytes (v : Version) : Nat := (List.range kNumLevels).foldl (fun total level => bytesOf (v.files level) total) 0

section Versions
variable {T : Type} [LinearOrder T] {o : Options T} {env : Nat → Option Bytes} {icmp : Comparator}
  {f : Manifest.FileMetaData} {files : List Manifest.FileMetaData} {v : Version} {level : Nat}

theorem TableFile.found {calls : List Call} (made : TableFile o env f calls) (lawful : o.Lawful) :
    ∃ t, findTable o env f.number f.fileSize = some t ∧
      (∀ a b, o.rank a ≤ o.rank b → t.approximateOffsetOf o a ≤ t.approximateOffsetOf o b) ∧
      ∀ a, t.approximateOffsetOf o a ≤ f.fileSize := by
  obtain ⟨t,opened,grows,within⟩ := table_offsets o lawful calls made.sorted made.fits
  refine ⟨t,?_,grows,fun a => made.size ▸ within a⟩
  simp [findTable,made.stored,made.size,opened,Except.toOption]

theorem le_levelOffset (icmp : Comparator) (o : Options T) (env : Nat → Option Bytes) (level : Nat) (ikey : Bytes)
    (files : List Manifest.FileMetaData) (result : Nat) : result ≤ levelOffset id icmp o env level ikey files result := by
  induction files generalizing result with
  | nil => exact le_refl result
  | cons f rest ih =>
    simp only [levelOffset]
    split
    · exact (Nat.le_add_right _ _).trans (ih _)
    · split
      · split
        · exact le_refl result
        · exact ih result
      · exact (Nat.le_add_right _ _).trans (ih _)

theorem le_bytesOf (files : List Manifest.FileMetaData) (total : Nat) : total ≤ bytesOf files total := by
  induction files generalizing total with
  | nil => exact le_refl total
  | cons f rest ih => exact (Nat.le_add_right _ _).trans (ih _)

/-- One file, with the comparisons as they are meant. -/
theorem levelOffset_cons (wrap : Nat → Nat) (ranked : Ranked icmp o) {t : Table}
    (found : findTable o env f.number f.fileSize = some t) (level : Nat) (ikey : Bytes) (result : Nat) :
    levelOffset wrap icmp o env level ikey (f :: files) result =
      if o.rank f.largest ≤ o.rank ikey then levelOffset wrap icmp o env level ikey files (wrap (result + f.fileSize))
      else if o.rank ikey < o.rank f.smallest then
        if 0 < level then result else levelOffset wrap icmp o env level ikey files result
      else levelOffset wrap icmp o env level ikey files (wrap (result + t.approximateOffsetOf o ikey)) := by
  have before : ∀ x y : T, (compare x y).isLE = true ↔ x ≤ y := fun x y =>
    Ordering.ne_gt_iff_isLE.symm.trans compare_le_iff_le
  simp only [levelOffset,ranked,found,Option.elim_some,compare_gt_iff_gt,before]

/-- A level adds no more for a smaller key. -/
theorem levelOffset_mono (lawful : o.Lawful) (ranked : Ranked icmp o)
    (made : ∀ f ∈ files, ∃ calls, TableFile o env f calls) {a b : Bytes} (le : o.rank a ≤ o.rank b) {m n : Nat}
    (less : m ≤ n) :
    levelOffset id icmp o env level a files m ≤ levelOffset id icmp o env level b files n := by
  induction files generalizing m n with
  | nil => exact less
  | cons f rest ih =>
    obtain ⟨calls,table⟩ := made f List.mem_cons_self
    obtain ⟨t,found,grows,within⟩ := table.found lawful
    have later : ∀ {m n : Nat}, m ≤ n →
        levelOffset id icmp o env level a rest m ≤ levelOffset id icmp o env level b rest n :=
      ih fun g member => made g (List.mem_cons_of_mem f member)
    simp only [levelOffset_cons id ranked found,id_eq]
    by_cases whole : o.rank f.largest ≤ o.rank a
    · simp only [whole,whole.trans le,if_true]
      exact later (Nat.add_le_add_right less _)
    by_cases after : o.rank a < o.rank f.smallest
    · simp only [whole,after,if_false,if_true]
      have most : n ≤ levelOffset id icmp o env level b (f :: rest) n := le_levelOffset icmp o env level b (f :: rest) n
      simp only [levelOffset_cons id ranked found,id_eq] at most
      by_cases deep : 0 < level
      · simp only [deep,if_true] at most ⊢
        exact less.trans most
      · simp only [deep,if_false]
        split
        · exact later (less.trans (Nat.le_add_right n _))
        · split
          · exact later less
          · exact later (less.trans (Nat.le_add_right n _))
    · have inside : ¬o.rank b < o.rank f.smallest := fun before => after (le.trans_lt before)
      simp only [whole,after,inside,if_false]
      split
      · exact later (Nat.add_le_add less (within a))
      · exact later (Nat.add_le_add less (grows a b le))

theorem levelOffset_le (lawful : o.Lawful) (ranked : Ranked icmp o)
    (made : ∀ f ∈ files, ∃ calls, TableFile o env f calls) (ikey : Bytes) {m n : Nat} (less : m ≤ n) :
    levelOffset id icmp o env level ikey files m ≤ bytesOf files n := by
  induction files generalizing m n with
  | nil => exact less
  | cons f rest ih =>
    obtain ⟨calls,table⟩ := made f List.mem_cons_self
    obtain ⟨t,found,-,within⟩ := table.found lawful
    have later : ∀ {m n : Nat}, m ≤ n → levelOffset id icmp o env level ikey rest m ≤ bytesOf rest n :=
      ih fun g member => made g (List.mem_cons_of_mem f member)
    have more : m ≤ n + f.fileSize := less.trans (Nat.le_add_right n _)
    simp only [levelOffset_cons id ranked found,id_eq]
    split
    · exact later (Nat.add_le_add_right less _)
    · split
      · split
        · exact more.trans (le_bytesOf rest _)
        · exact later more
      · exact later (Nat.add_le_add less (within ikey))

/-- Sums that end within 64 bits are never cut off. -/
theorem levelOffset_uint64 (level : Nat) (ikey : Bytes) {result : Nat}
    (room : levelOffset id icmp o env level ikey files result < 2^64) :
    levelOffset uint64 icmp o env level ikey files result = levelOffset id icmp o env level ikey files result := by
  induction files generalizing result with
  | nil => rfl
  | cons f rest ih =>
    have fits : ∀ n, levelOffset id icmp o env level ikey rest n < 2^64 → uint64 n = n := fun n room =>
      Nat.mod_eq_of_lt ((le_levelOffset icmp o env level ikey rest n).trans_lt room)
    simp only [levelOffset,id_eq] at room ⊢
    split
    · rename_i whole
      simp only [whole,if_true] at room
      simp only [fits _ room]
      exact ih room
    · rename_i whole
      simp only [whole] at room
      split
      · rename_i after
        simp only [after,if_true] at room
        split
        · rfl
        · rename_i shallow
          simp only [shallow,if_false] at room
          exact ih room
      · rename_i inside
        simp only [inside,if_false] at room
        simp only [fits _ room]
        exact ih room

/-- The sums over the levels. -/
theorem foldLevels_mono (lawful : o.Lawful) (ranked : Ranked icmp o)
    (made : v.Made o env) {a b : Bytes} (le : o.rank a ≤ o.rank b) (levels : List Nat) {m n : Nat} (less : m ≤ n) :
    levels.foldl (fun result level => levelOffset id icmp o env level a (v.files level) result) m ≤
      levels.foldl (fun result level => levelOffset id icmp o env level b (v.files level) result) n := by
  induction levels generalizing m n with
  | nil => exact less
  | cons level rest ih => exact ih (levelOffset_mono lawful ranked (made level) le less)

theorem foldLevels_le (lawful : o.Lawful) (ranked : Ranked icmp o)
    (made : v.Made o env) (ikey : Bytes) (levels : List Nat) {m n : Nat} (less : m ≤ n) :
    levels.foldl (fun result level => levelOffset id icmp o env level ikey (v.files level) result) m ≤
      levels.foldl (fun total level => bytesOf (v.files level) total) n := by
  induction levels generalizing m n with
  | nil => exact less
  | cons level rest ih => exact ih (levelOffset_le lawful ranked (made level) ikey less)

theorem foldLevels_uint64 (v : Version) (ikey : Bytes) (levels : List Nat) {result : Nat}
    (room : levels.foldl (fun result level => levelOffset id icmp o env level ikey (v.files level) result) result < 2^64) :
    levels.foldl (fun result level => levelOffset uint64 icmp o env level ikey (v.files level) result) result =
      levels.foldl (fun result level => levelOffset id icmp o env level ikey (v.files level) result) result := by
  have grows : ∀ (levels : List Nat) (result : Nat),
      result ≤ levels.foldl (fun result level => levelOffset id icmp o env level ikey (v.files level) result) result := by
    intro levels
    induction levels with
    | nil => exact fun result => le_refl result
    | cons level rest ih => exact fun result => (le_levelOffset icmp o env level ikey (v.files level) result).trans (ih _)
  induction levels generalizing result with
  | nil => rfl
  | cons level rest ih =>
    have first := levelOffset_uint64 level ikey ((grows rest _).trans_lt room)
    simp only [List.foldl_cons,first]
    exact ih room

end Versions

section Sizes
variable {U : Type} [LinearOrder U] {c : Comparator} {userRank : Bytes → U} {options : Options (U ×ₗ ℕᵒᵈ)}
  {env : Nat → Option Bytes} {v : Version}

theorem rank_seek (agrees : ∀ a b, c.compare a b = compare (userRank a) (userRank b)) {x y : Bytes}
    (le : (c.compare x y).isLE) : (c.forTables userRank options).rank (x ++ seekTag) ≤
      (c.forTables userRank options).rank (y ++ seekTag) := by
  have users : userRank x ≤ userRank y := by
    rw [agrees] at le
    exact compare_le_iff_le.mp (Ordering.ne_gt_iff_isLE.mpr le)
  have eight : seekTag.length = 8 := Encoded.length_encodeFixed64 _
  have tag : internalTag (x ++ seekTag) = internalTag (y ++ seekTag) := by
    simp only [internalTag,List.length_append,eight,Nat.add_sub_cancel,List.drop_left]
  simp only [Comparator.forTables,internalRank,extractUserKey_seekTag,tag,Prod.Lex.toLex_le_toLex]
  rcases users.lt_or_eq with less | same
  · exact .inl less
  · exact .inr ⟨same,le_refl _⟩

/-- The offsets in a version of tables grow with the keys. So the sizes of ranges that meet add
up, none is cut off at zero, and neither are the sums where all files have less than `2^64` bytes. -/
theorem approximate_sizes (lawful : c.Lawful) (agrees : ∀ a b, c.compare a b = compare (userRank a) (userRank b))
    (others : options.Lawful) (made : v.Made (c.forTables userRank options) env) :
    let o := c.forTables userRank options
    (∀ a b, (c.internal.compare a b).isLE →
      v.approximateOffsetOf id c.internal o env a ≤ v.approximateOffsetOf id c.internal o env b) ∧
    (∀ x y z, (c.compare x y).isLE → (c.compare y z).isLE → ∃ first second,
      v.approximateOffsetOf id c.internal o env (x ++ seekTag) + first = v.approximateOffsetOf id c.internal o env (y ++ seekTag) ∧
      v.approximateOffsetOf id c.internal o env (y ++ seekTag) + second = v.approximateOffsetOf id c.internal o env (z ++ seekTag) ∧
      v.getApproximateSizes id c.internal o env [(x,y),(y,z),(x,z)] = [first,second,first + second]) ∧
    (v.bytes < 2^64 →
      (∀ a, v.approximateOffsetOf uint64 c.internal o env a = v.approximateOffsetOf id c.internal o env a) ∧
      ∀ ranges, v.getApproximateSizes uint64 c.internal o env ranges = v.getApproximateSizes id c.internal o env ranges) := by
  have tables := forTables_lawful lawful agrees others
  have ranked : Ranked c.internal (c.forTables userRank options) := internal_compare_rank agrees
  have before : ∀ a b, (c.internal.compare a b).isLE →
      (c.forTables userRank options).rank a ≤ (c.forTables userRank options).rank b := by
    intro a b le
    rw [ranked] at le
    exact compare_le_iff_le.mp (Ordering.ne_gt_iff_isLE.mpr le)
  have grows : ∀ a b, (c.forTables userRank options).rank a ≤ (c.forTables userRank options).rank b →
      v.approximateOffsetOf id c.internal (c.forTables userRank options) env a ≤
        v.approximateOffsetOf id c.internal (c.forTables userRank options) env b := fun a b le =>
    foldLevels_mono tables ranked made le _ (le_refl 0)
  refine ⟨fun a b le => grows a b (before a b le),?_,?_⟩
  · intro x y z low high
    obtain ⟨first,one⟩ := Nat.exists_eq_add_of_le (grows (x ++ seekTag) (y ++ seekTag) (rank_seek agrees low))
    obtain ⟨second,two⟩ := Nat.exists_eq_add_of_le (grows (y ++ seekTag) (z ++ seekTag) (rank_seek agrees high))
    refine ⟨first,second,one.symm,two.symm,?_⟩
    simp only [Version.getApproximateSizes,List.map_cons,List.map_nil,two,one,Nat.add_assoc,Nat.le_add_right,if_true,
      Nat.add_sub_cancel_left,Nat.add_le_add_iff_left,Nat.add_sub_add_left]
  · intro small
    have same : ∀ a, v.approximateOffsetOf uint64 c.internal (c.forTables userRank options) env a =
        v.approximateOffsetOf id c.internal (c.forTables userRank options) env a := fun a =>
      foldLevels_uint64 v a _ ((foldLevels_le tables ranked made a _ (le_refl 0)).trans_lt small)
    refine ⟨same,?_⟩
    intro ranges
    simp only [Version.getApproximateSizes,same]

end Sizes

/-- Tables in the order of `BytewiseComparator`, without filters. -/
def plainOptions : Options (List Nat ×ₗ ℕᵒᵈ) :=
  bytewiseComparator.forTables bytewise { internalOptions firstByte with filterPolicy := none }

/-- The keys `a` and `c`, in a block each. -/
def spacedCalls : List Call := [.add [97,1,2,0,0,0,0,0,0] [7],.flush,.add [99,1,1,0,0,0,0,0,0] [8]]

def spacedFile (number : Nat) : Manifest.FileMetaData :=
  ⟨number,(buildTable plainOptions spacedCalls).length,[97,1,2,0,0,0,0,0,0],[99,1,1,0,0,0,0,0,0]⟩

/-- The table is in a file of level 0 and in one of level 1. -/
def spacedVersion : Version := ⟨fun level => if level ≤ 1 then [spacedFile (5 + level)] else []⟩

/-- The ranges from `a` to `b` and from `b` to `d`. -/
theorem approximate_sizes_spaced : ∃ first second, 0 < first ∧ 0 < second ∧
    spacedVersion.getApproximateSizes uint64 bytewiseComparator.internal plainOptions
      (fun _ => some (buildTable plainOptions spacedCalls)) [([97],[98]),([98],[100]),([97],[100])] =
        [first,second,first + second] := by
  have made : spacedVersion.Made plainOptions fun _ => some (buildTable plainOptions spacedCalls) := by
    intro level f member
    simp only [spacedVersion] at member
    split at member
    · cases List.mem_singleton.mp member
      exact ⟨spacedCalls,by decide,⟨by decide,by decide,by decide +kernel⟩,rfl,rfl⟩
    · cases member
  have plain : Options.Lawful { internalOptions firstByte with filterPolicy := none } :=
    ⟨(internalOptions_lawful firstByte).separator,(internalOptions_lawful firstByte).successor,
      (internalOptions_lawful firstByte).interval,(internalOptions_lawful firstByte).snappy,(internalOptions_lawful firstByte).zstd⟩
  obtain ⟨-,sizes,fit⟩ := approximate_sizes bytewiseComparator_lawful
    (agrees_of_lt bytewiseComparator_lawful.order.toOrientedCmp sliceCompare_lt) plain made
  obtain ⟨first,second,-,-,found⟩ := sizes [97] [98] [100] rfl rfl
  have evaluated : spacedVersion.getApproximateSizes id bytewiseComparator.internal plainOptions
      (fun _ => some (buildTable plainOptions spacedCalls)) [([97],[98]),([98],[100]),([97],[100])] = [52,264,316] := by
    decide +kernel
  have same := evaluated.symm.trans found
  simp only [List.cons.injEq] at same
  refine ⟨first,second,by omega,by omega,?_⟩
  exact ((fit (by decide +kernel)).2 _).trans found

end LevelDB.Sstable
