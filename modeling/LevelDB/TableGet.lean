import LevelDB.TableRoundTrip
import LevelDB.Format
import Mathlib.Data.Prod.Lex

/-! Point reads in a table of internal keys (`Table::InternalGet`, `InternalFilterPolicy`,
`SaveValue`): what a read saves does not depend on the filter block. -/
namespace LevelDB.Sstable

/-- `ExtractUserKey`: all but the last eight bytes. -/
def extractUserKey (key : Bytes) : Bytes := key.take (key.length - 8)

/-- The sequence number and the type, as one number. -/
def internalTag (key : Bytes) : Nat := decodeFixed64 (key.drop (key.length - 8))

/-- `ParseInternalKey`: the user key, the sequence number and the type. -/
def parseInternalKey (key : Bytes) : Option (InternalKey Bytes) :=
  if key.length < 8 then none
  else match internalTag key % 256 with
    | 0 => some ⟨extractUserKey key,internalTag key / 256,.deletion⟩
    | 1 => some ⟨extractUserKey key,internalTag key / 256,.value⟩
    | _ => none

/-- `InternalKeyComparator`: by user key, then by decreasing number. -/
def internalRank {U : Type} (userRank : Bytes → U) (key : Bytes) : U ×ₗ ℕᵒᵈ :=
  toLex (userRank (extractUserKey key),OrderDual.toDual (internalTag key))

/-- `InternalFilterPolicy` asks the policy about user keys. -/
def internalFilterPolicy (policy : FilterPolicy) : FilterPolicy where
  name := policy.name
  createFilter keys := policy.createFilter (keys.map extractUserKey)
  keyMayMatch key filter := policy.keyMayMatch (extractUserKey key) filter

/-- What `SaveValue` leaves in the saver. -/
inductive Saved where
  | notFound
  | found (value : Bytes)
  | deleted
  | corrupt
  deriving DecidableEq

/-- `SaveValue`, called for the entry that a read has found, if any. -/
def saveValue {U : Type} [DecidableEq U] (userRank : Bytes → U) (userKey : Bytes) : Option (Bytes × Bytes) → Saved
  | none => .notFound
  | some (key,value) =>
    match parseInternalKey key with
    | none => .corrupt
    | some parsed =>
      if userRank parsed.userKey = userRank userKey then
        match parsed.type with
        | .value => .found value
        | .deletion => .deleted
      else .notFound

/-- What a read of this key leaves, and its status. -/
def Table.get {U T : Type} [LinearOrder U] [LinearOrder T] (userRank : Bytes → U) (o : Options T) (verifyChecksums : Bool) (t : Table)
    (key : Bytes) : Saved × Option String :=
  let (entry,status) := t.internalGet o verifyChecksums key
  (saveValue userRank (extractUserKey key) entry,status)

section Get
variable {T : Type} [LinearOrder T] {o : Options T} {b : TableBuilder} {file : Bytes} {done : List Written} {footer : Footer}

/-- The filter does not let the key through at this offset. -/
def Table.skips (o : Options T) (t : Table) (offset : Nat) (key : Bytes) : Bool :=
  match o.filterPolicy, t.filter with
  | some policy, some filter => !filter.keyMayMatch policy offset key
  | _, _ => false

/-- A read looks into the one block that the index gives, unless the filter skips it. -/
theorem Finished.internalGet (finished : Finished o b file done footer) (small : file.length < 2^64) {l : BlockLayout} (ok : l.Ok)
    (entries : l.entries = done.map Written.entry)
    (sorted : (done.flatMap fun w => w.layout.entries).Pairwise fun x y => o.rank x.1 < o.rank y.1) {t : Table} (same : t.file = file)
    (index : t.indexBlock = Block.open l.bytes) (verifyChecksums : Bool) (key : Bytes) : t.internalGet o verifyChecksums key =
      match done[done.findIdx fun w => !decide (o.rank w.key < o.rank key)]? with
      | none => (none,none)
      | some w => if t.skips o w.handle.offset key then (none,none)
        else (w.layout.entries[w.layout.entries.findIdx fun e => !decide (o.rank e.1 < o.rank key)]?,none) := by
  have ordered := finished.sorted_index
  rw [← entries] at ordered
  have cursor := DataIterator.isCursor ok ordered
  have stands := cursor.seek (o.rank key) (DataIterator.newIterator_at ok)
  have current := cursor.current stands
  rw [entries,List.findIdx_map,List.getElem?_map] at current
  have fine := stands.fine
  simp only [Table.internalGet,index,current,fine]
  cases here : done[done.findIdx fun w => !decide (o.rank w.key < o.rank key)]? with
  | none =>
    have gone : done[List.findIdx ((fun e => !decide (o.rank e.1 < o.rank key)) ∘ Written.entry) done]? = none := here
    rw [gone]
    rfl
  | some w =>
    have found : done[List.findIdx ((fun e => !decide (o.rank e.1 < o.rank key)) ∘ Written.entry) done]? = some w := here
    have member : w ∈ done := List.mem_of_getElem? found
    have within := (finished.stored w member).within
    have decoded := BlockHandle.decode_encode (h := w.handle) (by omega) (by omega) []
    rw [List.append_nil] at decoded
    have block := DataIterator.isCursor (finished.ok w member).1 ((List.pairwise_flatMap.mp sorted).1 w member)
    have inside := block.seek (o.rank key) (DataIterator.newIterator_at (finished.ok w member).1)
    rw [found]
    simp only [Option.map_some,Written.entry,decoded,finished.blockReader small same verifyChecksums member,block.current inside,inside.fine,
      Option.or_none]
    rw [Table.skips]
    cases o.filterPolicy with
    | none => rfl
    | some policy =>
      cases t.filter with
      | none => rfl
      | some filter => rfl

/-- `ReadMeta` finds the filter block of the policy. -/
theorem Finished.readMeta (finished : Finished o b file done footer) (small : file.length < 2^64) (interval : 1 ≤ o.blockRestartInterval)
    {policy : FilterPolicy} {f : FilterBlockBuilder} (given : o.filterPolicy = some policy) (held : b.filterBlock = some f)
    (metaindex : (TableBuilder.metaindexBlock o (b.writeFilter o).1).finish.length < 2^32) {t : Table} (same : t.file = file) :
    (t.readMeta o footer).filter = some (.new (f.finish policy)) := by
  obtain ⟨h,handle,stored⟩ := finished.filter policy f given held
  have read := finished.metaindex
  have within := stored.within
  rw [handle] at read metaindex
  have block : TableBuilder.metaindexBlock o (some h) =
      BlockBuilder.new.add o.blockRestartInterval (TableBuilder.filterKey policy) h.encode := by
    simp only [TableBuilder.metaindexBlock,given]
  obtain ⟨l,laid,entries⟩ := BlockBuilder.new_holds.add interval (TableBuilder.filterKey policy) h.encode
  rw [List.nil_append] at entries
  rw [block,laid.finish] at read metaindex
  have ok : l.Ok := ⟨laid.shape,metaindex⟩
  have sorted : l.entries.Pairwise fun x y => bytewise x.1 < bytewise y.1 := by
    rw [entries]
    exact List.pairwise_singleton _ _
  have cursor := DataIterator.isCursor ok sorted
  have current := cursor.current (cursor.seek (bytewise (TableBuilder.filterKey policy)) (DataIterator.newIterator_at ok))
  have first := @findIdx_eq (Bytes × Bytes) (List Nat) _ (fun e => bytewise e.1) l.entries 0 (bytewise (TableBuilder.filterKey policy))
    (Nat.zero_le _) (fun e none => nomatch none) (by
      intro e there
      rw [entries] at there
      obtain rfl := Option.some.inj there
      exact lt_irrefl _)
  have decoded := BlockHandle.decode_encode (h := h) (by omega) (by omega) []
  rw [List.append_nil] at decoded
  rw [first,entries] at current
  rw [Table.readMeta,given]
  simp only [same,readBlock_stored read,current,List.getElem?_cons_zero,if_true]
  rw [Table.readFilter,decoded]
  simp only [same,readBlock_stored stored]

end Get

/-- What the format has room for with a filter: also the filter block and the metaindex have
32-bit offsets, and the keys of a filter are counted by an `int`. -/
structure FitsFilter {T : Type} (o : Options T) (policy : FilterPolicy) (calls : List Call) : Prop extends FitsFormat o calls where
  keys : ∀ b ∈ (TableBuilder.new o).states o calls, ∀ f, b.filterBlock = some f → f.keys.length < 2^31
  filter : ∀ f, ((TableBuilder.run o calls).flush o).filterBlock = some f → (f.finish policy).length < 2^32
  metaindex : (TableBuilder.metaindexBlock o (((TableBuilder.run o calls).flush o).writeFilter o).1).finish.length < 2^32

section Transparent
variable {U T : Type} [LinearOrder U] [LinearOrder T] {userRank : Bytes → U} {policy : FilterPolicy}

theorem internal_honest (honest : FilterBlockBuilder.Honest policy) : FilterBlockBuilder.Honest (internalFilterPolicy policy) := by
  intro keys k member
  exact honest (keys.map extractUserKey) (extractUserKey k) (List.mem_map_of_mem member)

theorem parse_userKey {key : Bytes} {parsed : InternalKey Bytes} (same : parseInternalKey key = some parsed) :
    parsed.userKey = extractUserKey key := by
  rw [parseInternalKey] at same
  split at same
  · cases same
  · split at same
    · rw [← Option.some.inj same]
    · rw [← Option.some.inj same]
    · cases same

/-- An entry of another user key is not what was looked for. -/
theorem saveValue_other (distinct : Function.Injective userRank) {userKey : Bytes} {e : Bytes × Bytes}
    (internal : (parseInternalKey e.1).isSome) (other : extractUserKey e.1 ≠ userKey) :
    saveValue userRank userKey (some e) = .notFound := by
  obtain ⟨parsed,same⟩ := Option.isSome_iff_exists.mp internal
  have user := parse_userKey same
  simp only [saveValue,same]
  rw [if_neg]
  intro equal
  exact other (user.symm.trans (distinct equal))

theorem keyMayMatch_userKey (filter : FilterBlockReader) (offset : Nat) {key key' : Bytes} (same : extractUserKey key = extractUserKey key') :
    filter.keyMayMatch (internalFilterPolicy policy) offset key = filter.keyMayMatch (internalFilterPolicy policy) offset key' := by
  simp only [FilterBlockReader.keyMayMatch,internalFilterPolicy,same]

/-- With a filter block a read saves the same as without. -/
theorem filter_transparent (distinct : Function.Injective userRank) (honest : FilterBlockBuilder.Honest policy) (o : Options T)
    (given : o.filterPolicy = some (internalFilterPolicy policy)) (lawful : o.Lawful) (calls : List Call)
    (sorted : (added calls).Pairwise fun x y => o.rank x.1 < o.rank y.1) (internal : ∀ e ∈ added calls, (parseInternalKey e.1).isSome)
    (fits : FitsFilter o (internalFilterPolicy policy) calls) (verifyChecksums : Bool) :
    ∃ t, Table.open o (buildTable o calls) = .ok t ∧ t.filter.isSome ∧ ∀ key,
      t.get userRank o verifyChecksums key = { t with filter := none }.get userRank o verifyChecksums key := by
  obtain ⟨p,done,footer,good,blocks,finished,_,all⟩ := run_finished lawful True sorted
    fun b member => ⟨fits.data b member,fun _ f held => fits.keys b member f held⟩
  obtain ⟨f,held,covers⟩ := good.filtered _ given
  obtain ⟨l,laid,entries⟩ := finished.holds
  have finish := laid.finish
  have index := fits.index
  rw [finish] at index
  have ok : l.Ok := ⟨laid.shape,index⟩
  have frame := readMeta_frame o footer
    (Table.mk (buildTable o calls) footer.metaindexHandle none (Block.open (((TableBuilder.run o calls).flush o).finishIndex o).indexBlock.finish))
  have filter := finished.readMeta fits.file lawful.interval given held fits.metaindex (t := Table.mk (buildTable o calls)
    footer.metaindexHandle none (Block.open (((TableBuilder.run o calls).flush o).finishIndex o).indexBlock.finish)) rfl
  refine ⟨_,finished.open fits.file,by rw [filter]; rfl,?_⟩
  generalize Table.readMeta o footer _ = t at frame filter
  rw [finish] at frame
  intro key
  have sorted' : (done.flatMap fun w => w.layout.entries).Pairwise fun x y => o.rank x.1 < o.rank y.1 := by rw [all]; exact sorted
  have one := finished.internalGet fits.file ok entries sorted' frame.1 frame.2 verifyChecksums key
  have two := finished.internalGet fits.file ok entries sorted' (t := { t with filter := none }) frame.1 frame.2 verifyChecksums key
  simp only [Table.get,one,two]
  cases here : done[done.findIdx fun w => !decide (o.rank w.key < o.rank key)]? with
  | none => rfl
  | some w =>
    have member := List.mem_of_getElem? here
    have free : Table.skips o { t with filter := none } w.handle.offset key = false := by
      rw [Table.skips,given]
    simp only [free,Bool.false_eq_true,if_false]
    by_cases skip : t.skips o w.handle.offset key
    · rw [if_pos skip]
      cases entry : w.layout.entries[w.layout.entries.findIdx fun e => !decide (o.rank e.1 < o.rank key)]? with
      | none => rfl
      | some e =>
        have inside := List.mem_of_getElem? entry
        have present : e ∈ added calls := by
          rw [← all]
          exact List.mem_flatMap.mpr ⟨w,member,inside⟩
        have listed : (w.handle.offset,w.layout.entries.map Prod.fst) ∈ p.keys := by
          rw [Progress.keys,blocks,List.map_map]
          exact List.mem_map.mpr ⟨w,member,rfl⟩
        have passes := covers.keyMayMatch (internal_honest honest) (good.bounded.keys trivial f held) (fits.filter f held) listed
          (List.mem_map_of_mem inside)
        have other : extractUserKey e.1 ≠ extractUserKey key := by
          intro equal
          rw [keyMayMatch_userKey _ _ equal] at passes
          simp only [Table.skips,given,filter,passes,Bool.not_true,Bool.false_eq_true] at skip
        show (Saved.notFound,none) = (saveValue userRank (extractUserKey key) (some e),none)
        rw [saveValue_other distinct (internal e present) other]
    · rw [if_neg skip]

end Transparent

/-- A table of internal keys under a policy, ordered by the bytes of the user keys. -/
def internalOptions (policy : FilterPolicy) : Options (List Nat ×ₗ ℕᵒᵈ) where
  rank := internalRank bytewise
  findShortestSeparator start _ := start
  findShortSuccessor key := key
  blockSize := 40
  blockRestartInterval := 16
  compression := .noCompression
  snappy := .absent
  zstd := .absent
  filterPolicy := some (internalFilterPolicy policy)
  paranoidChecks := false

theorem internalOptions_lawful (policy : FilterPolicy) : (internalOptions policy).Lawful := by
  constructor
  · intro start limit less
    exact ⟨le_refl _,less⟩
  · intro key
    exact le_refl _
  · exact Nat.le_of_ble_eq_true rfl
  · exact Codec.absent_lawful
  · exact Codec.absent_lawful

theorem bytewise_injective : Function.Injective bytewise := by
  intro a b same
  exact List.map_injective_iff.mpr (fun x y => UInt8.toNat_inj.mp) same

/-- Keys by their first byte. -/
def firstByte : FilterPolicy := ⟨[0x66],fun keys => keys.map (·.headD 0),fun key filter => filter.contains (key.headD 0)⟩

theorem firstByte_honest : FilterBlockBuilder.Honest firstByte := by
  intro keys k member
  show (keys.map (·.headD 0)).contains (k.headD 0) = true
  rw [List.contains_iff_mem]
  exact List.mem_map_of_mem member

def internalCalls : List Call :=
  [.add [97,1,2,0,0,0,0,0,0] [7],.add [97,1,1,0,0,0,0,0,0] [8],.add [98,0,3,0,0,0,0,0,0] [],.add [99,1,4,0,0,0,0,0,0] [9]]

/-- A deleted key and one that the filter rejects. -/
theorem filter_transparent_sample : ∃ t, Table.open (internalOptions firstByte) (buildTable (internalOptions firstByte) internalCalls) = .ok t ∧
    t.filter.isSome ∧ ∀ key ∈ [[98,1,9,0,0,0,0,0,0],[100,1,9,0,0,0,0,0,0]], t.get bytewise (internalOptions firstByte) true key =
      { t with filter := none }.get bytewise (internalOptions firstByte) true key := by
  obtain ⟨t,opened,filter,same⟩ := filter_transparent bytewise_injective firstByte_honest (internalOptions firstByte) rfl
    (internalOptions_lawful firstByte) internalCalls (by decide) (by decide)
    ⟨⟨by decide,by decide,by decide +kernel⟩,by decide,by decide,by decide⟩ true
  exact ⟨t,opened,filter,fun key _ => same key⟩

section Overflow
variable {n : Nat}

/-- A filter of so many bytes; only the empty one rejects keys. -/
def zeroFilter (n : Nat) : FilterPolicy := ⟨[0x7a],fun _ => List.replicate n 0,fun _ filter => !filter.isEmpty⟩

theorem zeroFilter_honest (positive : 0 < n) : FilterBlockBuilder.Honest (zeroFilter n) := by
  intro keys k _
  show (!(List.replicate n (0 : UInt8)).isEmpty) = true
  rw [List.isEmpty_replicate,decide_eq_false (Nat.pos_iff_ne_zero.mp positive)]
  rfl

def overflowKey : Bytes := [97,1,1,0,0,0,0,0,0]

def overflowCalls : List Call := [.add overflowKey [7]]

/-- The filter block of the one key, with the array of its offset and the offset of that. -/
theorem finish_zeroFilter (n : Nat) : FilterBlockBuilder.finish (internalFilterPolicy (zeroFilter n)) ⟨[overflowKey],[],[]⟩ =
    List.replicate n 0 ++ ([0,0,0,0] ++ (putFixed32 n ++ [11])) := by
  have generated : FilterBlockBuilder.generateFilter (internalFilterPolicy (zeroFilter n)) ⟨[overflowKey],[],[]⟩ =
      ⟨[],List.replicate n 0,[0]⟩ := by
    rw [FilterBlockBuilder.generateFilter]
    rfl
  rw [FilterBlockBuilder.finish,if_neg (by simp),generated,FilterBlockBuilder.encode]
  simp only [List.length_replicate,List.append_assoc]
  rfl

/-- Where the offset wraps around, the reader takes bytes of the filter for its offsets. -/
theorem zeroFilter_rejects (long : 8 ≤ n) (wraps : n % 2^32 = 0) (key : Bytes) :
    (FilterBlockReader.new (List.replicate n 0 ++ ([0,0,0,0] ++ (putFixed32 n ++ [11])))).keyMayMatch
      (internalFilterPolicy (zeroFilter n)) 0 key = false := by
  obtain ⟨m,rfl⟩ : ∃ m, n = 8 + m := ⟨n - 8,by omega⟩
  have zero : putFixed32 (8 + m) = [0,0,0,0] := by
    have none : BitVec.ofNat 32 (8 + m) = 0#32 := by
      apply BitVec.eq_of_toNat_eq
      rw [BitVec.toNat_ofNat,wraps]
      rfl
    rw [putFixed32,none]
    rfl
  have bytes : List.replicate (8 + m) (0 : UInt8) ++ ([0,0,0,0] ++ (putFixed32 (8 + m) ++ [11])) =
      (List.replicate 8 0 ++ (List.replicate m 0 ++ [0,0,0,0])) ++ [0,0,0,0,11] := by
    rw [zero,List.replicate_add]
    simp only [List.append_assoc,List.cons_append,List.nil_append]
  have length : (List.replicate 8 (0 : UInt8) ++ (List.replicate m 0 ++ [0,0,0,0])).length = 12 + m := by
    simp only [List.length_append,List.length_replicate,List.length_cons,List.length_nil]
    omega
  have reader : FilterBlockReader.new (List.replicate (8 + m) 0 ++ ([0,0,0,0] ++ (putFixed32 (8 + m) ++ [11]))) =
      ⟨(List.replicate 8 0 ++ (List.replicate m 0 ++ [0,0,0,0])) ++ [0,0,0,0,11],0,(12 + m) / 4,11⟩ := by
    rw [bytes,FilterBlockReader.new]
    have total : ((List.replicate 8 (0 : UInt8) ++ (List.replicate m 0 ++ [0,0,0,0])) ++ [0,0,0,0,11]).length = 12 + m + 5 := by
      rw [List.length_append,length]
      rfl
    have last : ((List.replicate 8 (0 : UInt8) ++ (List.replicate m 0 ++ [0,0,0,0])) ++ [0,0,0,0,11]).getD (12 + m + 5 - 1) 0 = 11 := by
      rw [List.getD_eq_getElem?_getD,List.getElem?_append_right (by omega),length,show 12 + m + 5 - 1 - (12 + m) = 4 by omega]
      rfl
    simp only [total,last,Nat.add_sub_cancel,List.drop_left' length]
    rw [if_neg (by omega),if_neg (by simp [decodeFixed32])]
    simp [decodeFixed32]
  rw [reader,FilterBlockReader.keyMayMatch]
  have start : (decodeFixed32 (((List.replicate 8 (0 : UInt8) ++ (List.replicate m 0 ++ [0,0,0,0])) ++ [0,0,0,0,11]).drop 0)).toNat = 0 := rfl
  have limit : (decodeFixed32 (((List.replicate 8 (0 : UInt8) ++ (List.replicate m 0 ++ [0,0,0,0])) ++ [0,0,0,0,11]).drop 4)).toNat = 0 := rfl
  simp only [Nat.zero_shiftRight,Nat.zero_mul,Nat.add_zero,Nat.zero_add,start,limit]
  rw [if_pos (by omega)]
  rfl

/-- The length of a table whose blocks are stored as they are. -/
theorem length_finish {T : Type} {o : Options T} (plain : o.compression = .noCompression) {policy : FilterPolicy} {f : FilterBlockBuilder}
    {b : TableBuilder} (given : o.filterPolicy = some policy) (held : (b.flush o).filterBlock = some f) : (b.finish o).file.length =
      (b.flush o).file.length + (f.finish policy).length +
        (TableBuilder.metaindexBlock o (some ⟨(b.flush o).offset,(f.finish policy).length⟩)).finish.length +
        ((b.flush o).finishIndex o).indexBlock.finish.length + 63 := by
  have bytes : ∀ raw, (blockBytes o raw).length = raw.length + 5 := by
    intro raw
    rw [blockBytes,TableBuilder.blockContents,plain,List.length_append]
    rfl
  obtain ⟨more,second,filters⟩ := writeFilter_eq o (b.flush o)
  obtain ⟨handle,grown⟩ := filters policy f given held
  rw [finish_file]
  simp only [writeBlock_eq,finishIndex_file,List.length_append,Footer.length_encode,bytes]
  rw [finishIndex_extend,second,finishIndex_extend,grown,handle]
  simp only [List.length_append]
  have five : (trailer (f.finish policy) .noCompression).length = 5 := rfl
  have footer : Footer.kEncodedLength = 48 := rfl
  omega

def overflowOptions : Options (List Nat ×ₗ ℕᵒᵈ) := internalOptions (zeroFilter (2^32))

theorem overflow_filterBlock : ((TableBuilder.run overflowOptions overflowCalls).flush overflowOptions).filterBlock =
    some ⟨[overflowKey],[],[]⟩ := by
  decide

theorem overflow_size : (FilterBlockBuilder.finish (internalFilterPolicy (zeroFilter (2^32))) ⟨[overflowKey],[],[]⟩).length = 4294967305 := by
  rw [finish_zeroFilter,List.length_append,List.length_replicate]
  rfl

theorem overflow_format : FitsFormat overflowOptions overflowCalls := by
  refine ⟨by decide,by decide,?_⟩
  rw [buildTable,length_finish rfl rfl overflow_filterBlock,overflow_size]
  decide

theorem overflow_metaindex : (TableBuilder.metaindexBlock overflowOptions
    (((TableBuilder.run overflowOptions overflowCalls).flush overflowOptions).writeFilter overflowOptions).1).finish.length < 2^32 := by
  obtain ⟨more,_,filters⟩ := writeFilter_eq overflowOptions ((TableBuilder.run overflowOptions overflowCalls).flush overflowOptions)
  rw [(filters _ _ rfl overflow_filterBlock).1,overflow_size]
  decide

/-- The index sends the key to the block at offset 0. -/
theorem overflow_index : (DataIterator.ops overflowOptions.rank).current ((DataIterator.ops overflowOptions.rank).seek
    (overflowOptions.rank overflowKey) (Block.open (((TableBuilder.run overflowOptions overflowCalls).flush overflowOptions).finishIndex
      overflowOptions).indexBlock.finish).newIterator) = some (overflowKey,[0,21]) := by
  decide

/-- With a filter of 4 GiB the one key of a table is not found. -/
theorem filter_overflow : FilterBlockBuilder.Honest (zeroFilter (2^32)) ∧ overflowOptions.Lawful ∧ FitsFormat overflowOptions overflowCalls ∧
    ∃ t, Table.open overflowOptions (buildTable overflowOptions overflowCalls) = .ok t ∧
      t.get bytewise overflowOptions false overflowKey = (.notFound,none) ∧
      { t with filter := none }.get bytewise overflowOptions false overflowKey = (.found [7],none) := by
  have lawful : overflowOptions.Lawful := internalOptions_lawful (zeroFilter (2^32))
  have fits := overflow_format
  have sorted : (added overflowCalls).Pairwise fun x y => overflowOptions.rank x.1 < overflowOptions.rank y.1 :=
    List.pairwise_singleton _ _
  refine ⟨zeroFilter_honest (by decide),lawful,fits,?_⟩
  have bounded : ∀ b ∈ (TableBuilder.new overflowOptions).states overflowOptions overflowCalls, Bounded False b :=
    fun b member => ⟨fits.data b member,False.elim⟩
  obtain ⟨p,done,footer,good,blocks,finished,_,all⟩ := run_finished lawful False sorted bounded
  obtain ⟨l,laid,entries⟩ := finished.holds
  have ok : l.Ok := ⟨laid.shape,by rw [← laid.finish]; exact fits.index⟩
  have frame := readMeta_frame overflowOptions footer (Table.mk (buildTable overflowOptions overflowCalls) footer.metaindexHandle none
    (Block.open (((TableBuilder.run overflowOptions overflowCalls).flush overflowOptions).finishIndex overflowOptions).indexBlock.finish))
  have filter := finished.readMeta fits.file lawful.interval rfl overflow_filterBlock overflow_metaindex (t := Table.mk
    (buildTable overflowOptions overflowCalls) footer.metaindexHandle none
    (Block.open (((TableBuilder.run overflowOptions overflowCalls).flush overflowOptions).finishIndex overflowOptions).indexBlock.finish)) rfl
  refine ⟨_,finished.open fits.file,?_⟩
  generalize Table.readMeta overflowOptions footer _ = t at frame filter
  constructor
  · have decoded : BlockHandle.decode [0,21] = .ok (⟨0,21⟩,[]) := rfl
    have rejects := zeroFilter_rejects (n := 2^32) (by decide) (by decide) overflowKey
    rw [← finish_zeroFilter] at rejects
    have index := finished.sorted_index
    rw [← entries] at index
    have cursor := DataIterator.isCursor ok index
    have fine := (cursor.seek (overflowOptions.rank overflowKey) (DataIterator.newIterator_at ok)).fine
    rw [← laid.finish] at fine
    simp only [Table.get,Table.internalGet,frame.2,overflow_index,filter,decoded,fine]
    rw [show overflowOptions.filterPolicy = some (internalFilterPolicy (zeroFilter (2^32))) from rfl]
    simp only [rejects,Bool.not_false,if_true]
    rfl
  · have sorted' : (done.flatMap fun w => w.layout.entries).Pairwise fun x y => overflowOptions.rank x.1 < overflowOptions.rank y.1 := by
      rw [all]
      exact sorted
    have got := finished.internalGet fits.file ok entries sorted' (t := { t with filter := none }) frame.1 (by rw [← laid.finish]; exact frame.2)
      false overflowKey
    cases done with
    | nil => cases all
    | cons w rest =>
      have one : w.layout.entries = [(overflowKey,[7])] := by
        rw [List.flatMap_cons,show added overflowCalls = [(overflowKey,[7])] from rfl,List.append_eq_singleton_iff] at all
        rcases all with ⟨none,_⟩ | ⟨same,_⟩
        · exact absurd none (finished.ok w (List.mem_cons_self ..)).2
        · exact same
      have below : ¬overflowOptions.rank w.key < overflowOptions.rank overflowKey :=
        not_lt.mpr (finished.upper w (List.mem_cons_self ..) (overflowKey,[7]) (by rw [one]; exact List.mem_singleton.mpr rfl))
      have skip : Table.skips overflowOptions { t with filter := none } w.handle.offset overflowKey = false := rfl
      simp only [List.findIdx_cons,below,decide_false,Bool.not_false,cond_true,List.getElem?_cons_zero,skip,Bool.false_eq_true,if_false,
        one,lt_irrefl] at got
      rw [Table.get,got]
      decide

end Overflow

end LevelDB.Sstable
