import LevelDB.Table
import LevelDB.FilterCovers

/-! A table read back: what the builder has written so far, up to the entries it still
holds, and the iterator of the finished file as a cursor over all entries. -/
namespace LevelDB.Sstable

theorem BlockHandle.decode_encode {h : BlockHandle} (offset : h.offset < 2^64) (size : h.size < 2^64) (tail : Bytes) :
    BlockHandle.decode (h.encode ++ tail) = .ok (h,tail) := by
  rw [BlockHandle.decode,BlockHandle.encode,List.append_assoc,getVarint64_encode _ offset]
  simp only [getVarint64_encode _ size]

theorem length_varintLoop (fuel v : Nat) : (varintLoop fuel v).length ≤ fuel + 1 := by
  induction fuel generalizing v with
  | zero => exact le_refl 1
  | succ fuel ih =>
    rw [varintLoop]
    split
    · exact Nat.succ_le_succ (Nat.zero_le _)
    · exact Nat.succ_le_succ (ih _)

theorem BlockHandle.length_encode (h : BlockHandle) : h.encode.length ≤ 20 := by
  have one := length_varintLoop 9 h.offset
  have two := length_varintLoop 9 h.size
  rw [BlockHandle.encode,List.length_append,encodeVarint64,encodeVarint64]
  omega

/-- The handles in a footer, with their padding. -/
theorem Footer.handles (f : Footer) : ∃ padding, (f.metaindexHandle.encode ++ f.indexHandle.encode ++ List.replicate 40 0).take 40 =
    f.metaindexHandle.encode ++ (f.indexHandle.encode ++ padding) ∧
    (f.metaindexHandle.encode ++ (f.indexHandle.encode ++ padding)).length = 40 := by
  have one := f.metaindexHandle.length_encode
  have two := f.indexHandle.length_encode
  refine ⟨List.replicate (40 - (f.metaindexHandle.encode.length + f.indexHandle.encode.length)) 0,?_,?_⟩
  · rw [List.take_append,List.take_of_length_le (by rw [List.length_append]; omega),List.take_replicate,List.length_append,
      Nat.min_eq_left (Nat.sub_le _ _),List.append_assoc]
  · simp only [List.length_append,List.length_replicate]
    omega

theorem Footer.length_encode (f : Footer) : f.encode.length = kEncodedLength := by
  obtain ⟨padding,same,length⟩ := f.handles
  rw [Footer.encode,same,List.length_append,List.length_append,length]
  rfl

theorem Footer.decode_encode {f : Footer} (metaindex : f.metaindexHandle.offset < 2^64 ∧ f.metaindexHandle.size < 2^64)
    (index : f.indexHandle.offset < 2^64 ∧ f.indexHandle.size < 2^64) : Footer.decode f.encode = .ok f := by
  obtain ⟨padding,same,length⟩ := f.handles
  have low : (decodeFixed32 (f.encode.drop 40)).toNat = kTableMagicNumber % 2^32 := by
    rw [Footer.encode,same,List.append_assoc,List.drop_left' length]
    exact decodeFixed32_putFixed32 (by decide) _
  have high : (decodeFixed32 (f.encode.drop 44)).toNat = kTableMagicNumber / 2^32 := by
    rw [Footer.encode,same,List.drop_left' (by rw [List.length_append,length]; rfl),← List.append_nil (putFixed32 _)]
    exact decodeFixed32_putFixed32 (by decide) _
  rw [Footer.decode,if_neg (by rw [f.length_encode]; exact lt_irrefl _),high,low,if_neg (by decide),Footer.encode,same]
  simp only [List.append_assoc,BlockHandle.decode_encode metaindex.1 metaindex.2]
  show (BlockHandle.decode _).bind _ = _
  rw [BlockHandle.decode_encode index.1 index.2]
  rfl

section Blocks
variable {T : Type} {o : Options T}

/-- What is stored as these contents reads as the raw block. -/
def Unpacks (o : Options T) (contents : Bytes) (type : CompressionType) (raw : Bytes) : Prop :=
  match type with
  | .noCompression => contents = raw
  | .snappyCompression => unpack o.snappy "snappy" contents = .ok raw
  | .zstdCompression => unpack o.zstd "zstd" contents = .ok raw

theorem unpack_compress {c : Codec} (lawful : c.Lawful) (name : String) {raw packed : Bytes} (compressed : c.compress raw = some packed) :
    unpack c name packed = .ok raw := by
  rw [unpack,lawful.length raw packed compressed]
  simp only [lawful.contents raw packed compressed,List.take_length]

theorem unpacks_blockContents [LinearOrder T] (lawful : o.Lawful) (raw : Bytes) :
    Unpacks o (TableBuilder.blockContents o raw).1 (TableBuilder.blockContents o raw).2 raw := by
  rw [TableBuilder.blockContents]
  cases o.compression with
  | noCompression => rfl
  | snappyCompression =>
    simp only [TableBuilder.pack]
    cases compressed : o.snappy.compress raw with
    | none => rfl
    | some packed =>
      by_cases saves : packed.length < raw.length - raw.length / 8
      · simp only [saves,if_true]
        exact unpack_compress lawful.snappy _ compressed
      · simp only [saves,if_false]
        rfl
  | zstdCompression =>
    simp only [TableBuilder.pack]
    cases compressed : o.zstd.compress raw with
    | none => rfl
    | some packed =>
      by_cases saves : packed.length < raw.length - raw.length / 8
      · simp only [saves,if_true]
        exact unpack_compress lawful.zstd _ compressed
      · simp only [saves,if_false]
        rfl

/-- The file has the block at its handle, whatever comes before and behind. -/
def Stored (o : Options T) (file : Bytes) (h : BlockHandle) (raw : Bytes) : Prop :=
  ∃ front contents type back, file = front ++ (contents ++ (trailer contents type ++ back)) ∧ front.length = h.offset ∧
    contents.length = h.size ∧ Unpacks o contents type raw

theorem Stored.append {file : Bytes} {h : BlockHandle} {raw : Bytes} (stored : Stored o file h raw) (more : Bytes) :
    Stored o (file ++ more) h raw := by
  obtain ⟨front,contents,type,back,rfl,place,size,unpacks⟩ := stored
  refine ⟨front,contents,type,back ++ more,?_,place,size,unpacks⟩
  simp only [List.append_assoc]

theorem Stored.within {file : Bytes} {h : BlockHandle} {raw : Bytes} (stored : Stored o file h raw) :
    h.offset + h.size + kBlockTrailerSize ≤ file.length := by
  obtain ⟨front,contents,type,back,rfl,place,size,unpacks⟩ := stored
  have five : (trailer contents type).length = kBlockTrailerSize := rfl
  simp only [List.length_append,place,size,five]
  omega

theorem readBlock_stored {file : Bytes} {h : BlockHandle} {raw : Bytes} (stored : Stored o file h raw) (verifyChecksums : Bool) :
    readBlock o verifyChecksums file h = .ok raw := by
  obtain ⟨front,contents,type,back,rfl,place,size,unpacks⟩ := stored
  have five : (trailer contents type).length = kBlockTrailerSize := rfl
  have got : read (front ++ (contents ++ (trailer contents type ++ back))) h.offset (h.size + kBlockTrailerSize) =
      contents ++ trailer contents type := by
    rw [read,← place,List.drop_left,← List.append_assoc,List.take_left' (by rw [List.length_append,size,five])]
  have whole : (contents ++ trailer contents type).take (h.size + 1) = contents ++ [type.code] := by
    rw [← size,List.take_length_add_append]
    rfl
  have check : Crc32c.value (contents ++ [type.code]) =
      Crc32c.unmask (decodeFixed32 ((contents ++ trailer contents type).drop (h.size + 1))) := by
    rw [← size,← List.drop_drop,List.drop_left,trailer,List.drop_one,List.tail_cons,← List.append_nil (encodeFixed32 _),
      decodeFixed32_encodeFixed32,Crc32c.unmask_mask,Crc32c.value,Crc32c.value,Crc32c.extend_append]
  have byte : (contents ++ trailer contents type).getD h.size 0 = type.code := by
    rw [← size]
    simp [trailer]
  have front_ : (contents ++ trailer contents type).take h.size = contents := List.take_left' size
  simp only [readBlock,got,whole,← check,byte,front_]
  rw [if_neg (by rw [List.length_append,size,five]; exact fun h => h rfl),if_neg (fun h => h.2 rfl)]
  cases type with
  | noCompression => exact congrArg _ unpacks
  | snappyCompression => exact unpacks
  | zstdCompression => exact unpacks

end Blocks

/-- A data block in the file with its key in the index. -/
structure Written where
  key : Bytes
  handle : BlockHandle
  layout : BlockLayout

def Written.entry (w : Written) : Bytes × Bytes := (w.key,w.handle.encode)

/-- How far a builder has got: the blocks that are in the index, the one that waits for its
index entry, and the entries of the block at hand. -/
structure Progress where
  done : List Written
  pending : Option (BlockHandle × BlockLayout)
  cur : List (Bytes × Bytes)

namespace Progress

def blocks (p : Progress) : List (BlockHandle × BlockLayout) := p.done.map (fun w => (w.handle,w.layout)) ++ p.pending.toList

def entries (p : Progress) : List (Bytes × Bytes) := p.blocks.flatMap (fun x => x.2.entries) ++ p.cur

def keys (p : Progress) : List (Nat × List Bytes) := p.blocks.map fun x => (x.1.offset,x.2.entries.map Prod.fst)

/-- The entries without a block in the index. -/
def rest (p : Progress) : List (Bytes × Bytes) := p.pending.toList.flatMap (fun x => x.2.entries) ++ p.cur

end Progress

section Build
variable {T : Type} [LinearOrder T] {o : Options T} {b : TableBuilder} {p : Progress}

structure Built (o : Options T) (b : TableBuilder) (p : Progress) : Prop where
  offset : b.offset = b.file.length
  data : b.dataBlock.Holds p.cur
  index : b.indexBlock.Holds (p.done.map Written.entry)
  stored : ∀ x ∈ p.blocks, Stored o b.file x.1 x.2.bytes
  ok : ∀ x ∈ p.blocks, x.2.Ok ∧ x.2.entries ≠ []
  ordered : p.blocks.Pairwise fun x y => x.1.offset < y.1.offset
  upper : ∀ w ∈ p.done, ∀ e ∈ w.layout.entries, o.rank e.1 ≤ o.rank w.key
  lower : p.done.Pairwise fun v w => ∀ e ∈ w.layout.entries, o.rank v.key < o.rank e.1
  later : ∀ w ∈ p.done, ∀ e ∈ p.rest, o.rank w.key < o.rank e.1
  flag : b.pendingIndexEntry = p.pending.isSome
  pending : ∀ x, p.pending = some x → p.cur = [] ∧ b.pendingHandle = x.1

theorem new_built (o : Options T) : Built o (.new o) ⟨[],none,[]⟩ := by
  refine ⟨rfl,BlockBuilder.new_holds,BlockBuilder.new_holds,?_,?_,.nil,?_,.nil,?_,rfl,?_⟩
  · intro x member
    cases member
  · intro x member
    cases member
  · intro w member
    cases member
  · intro w member
    cases member
  · intro x same
    cases same

/-- More bytes at the end of the file change nothing. -/
theorem Built.extend (built : Built o b p) (more : Bytes) (filterBlock : Option FilterBlockBuilder) :
    Built o { b with file := b.file ++ more, offset := b.offset + more.length, filterBlock := filterBlock } p := by
  refine ⟨?_,built.data,built.index,?_,built.ok,built.ordered,built.upper,built.lower,built.later,built.flag,built.pending⟩
  · show b.offset + more.length = (b.file ++ more).length
    rw [List.length_append,built.offset]
  · intro x member
    exact (built.stored x member).append more

omit [LinearOrder T] in
theorem mapFilter_eq (o : Options T) (F : FilterPolicy → FilterBlockBuilder → FilterBlockBuilder) (b : TableBuilder) :
    ∃ filterBlock, b.mapFilter o F = { b with filterBlock := filterBlock } ∧
      (∀ policy, o.filterPolicy = some policy → filterBlock = b.filterBlock.map (F policy)) ∧
      (o.filterPolicy = none → filterBlock = b.filterBlock) := by
  rw [TableBuilder.mapFilter]
  cases given : o.filterPolicy with
  | none => exact ⟨b.filterBlock,rfl,(fun policy same => nomatch same),fun _ => rfl⟩
  | some policy =>
    refine ⟨_,rfl,?_,fun none => nomatch none⟩
    intro policy' same
    rw [Option.some.inj same]

/-- The block that waits gets its index entry. -/
theorem Built.addIndexEntry (built : Built o b p) {h : BlockHandle} {l : BlockLayout} (waits : p.pending = some (h,l)) (key : Bytes)
    (upper : ∀ e ∈ l.entries, o.rank e.1 ≤ o.rank key) : Built o (b.addIndexEntry key) ⟨p.done ++ [⟨key,h,l⟩],none,[]⟩ := by
  obtain ⟨empty,handle⟩ := built.pending _ waits
  have blocks : Progress.blocks ⟨p.done ++ [⟨key,h,l⟩],none,[]⟩ = p.blocks := by
    simp [Progress.blocks,waits]
  have rest : p.rest = l.entries := by simp [Progress.rest,waits,empty]
  refine ⟨built.offset,?_,?_,?_,?_,?_,?_,?_,?_,rfl,?_⟩
  · have data := built.data
    rw [empty] at data
    exact data
  · show (b.indexBlock.add 1 key b.pendingHandle.encode).Holds _
    rw [List.map_append,List.map_singleton,handle]
    exact built.index.add (le_refl 1) key h.encode
  · rw [blocks]
    exact built.stored
  · rw [blocks]
    exact built.ok
  · rw [blocks]
    exact built.ordered
  · intro w member
    rcases List.mem_append.mp member with old | new
    · exact built.upper w old
    · obtain rfl := List.mem_singleton.mp new
      exact upper
  · refine List.pairwise_append.mpr ⟨built.lower,List.pairwise_singleton _ _,?_⟩
    intro w member v new
    obtain rfl := List.mem_singleton.mp new
    have later := built.later w member
    rw [rest] at later
    exact later
  · intro w member e none
    cases none
  · intro x same
    cases same

/-- Between two calls the builder knows the key of the last entry, which is in a block
without an index entry. -/
structure Ready (b : TableBuilder) (p : Progress) : Prop where
  lastKey : ∀ e, p.entries.getLast? = some e → b.lastKey = e.1
  behind : p.pending = none → p.done = [] ∨ p.cur ≠ []

theorem le_getLast {list : List (Bytes × Bytes)} (sorted : list.Pairwise fun a b => o.rank a.1 < o.rank b.1) {e z : Bytes × Bytes}
    (member : e ∈ list) (last : list.getLast? = some z) : o.rank e.1 ≤ o.rank z.1 := by
  obtain ⟨front,rfl⟩ := List.getLast?_eq_some_iff.mp last
  rcases List.mem_append.mp member with before | same
  · exact le_of_lt ((List.pairwise_append.mp sorted).2.2 e before z (List.mem_singleton.mpr rfl))
  · rw [List.mem_singleton.mp same]

/-- The entry goes to the block at hand, when no block waits. -/
theorem Built.addData (built : Built o b p) (none_ : p.pending = none) (interval : 1 ≤ o.blockRestartInterval) {key : Bytes} (value : Bytes)
    (later : ∀ w ∈ p.done, o.rank w.key < o.rank key) (n : Nat) (filterBlock : Option FilterBlockBuilder) :
    Built o { b with
      filterBlock := filterBlock
      lastKey := key
      numEntries := n
      dataBlock := b.dataBlock.add o.blockRestartInterval key value } { p with cur := p.cur ++ [(key,value)] } := by
  refine ⟨built.offset,built.data.add interval key value,built.index,built.stored,built.ok,built.ordered,built.upper,built.lower,?_,
    built.flag,?_⟩
  · intro w member e inside
    have old := built.later w member
    simp only [Progress.rest,none_,Option.toList_none,List.flatMap_nil,List.nil_append] at old inside
    rcases List.mem_append.mp inside with before | new
    · exact old e before
    · obtain rfl := List.mem_singleton.mp new
      exact later w member
  · intro x same
    rw [none_] at same
    cases same

/-- The key of a block that waits lies behind all its entries. -/
theorem Built.lastKey_pending (built : Built o b p) (ready : Ready b p) (sorted : p.entries.Pairwise fun a b => o.rank a.1 < o.rank b.1)
    {h : BlockHandle} {l : BlockLayout} (waits : p.pending = some (h,l)) :
    (∀ e ∈ l.entries, o.rank e.1 ≤ o.rank b.lastKey) ∧ ∃ z ∈ p.entries, b.lastKey = z.1 := by
  have member : (h,l) ∈ p.blocks := by simp [Progress.blocks,waits]
  have inside : ∀ e ∈ l.entries, e ∈ p.entries := fun e there =>
    List.mem_append_left _ (List.mem_flatMap.mpr ⟨(h,l),member,there⟩)
  obtain ⟨e,there⟩ := List.exists_mem_of_ne_nil _ (built.ok _ member).2
  obtain ⟨z,last⟩ : ∃ z, p.entries.getLast? = some z :=
    Option.isSome_iff_exists.mp (List.getLast?_isSome.mpr (List.ne_nil_of_mem (inside e there)))
  have lastKey := ready.lastKey z last
  refine ⟨?_,z,List.mem_of_getLast? last,lastKey⟩
  intro e there
  rw [lastKey]
  exact le_getLast sorted (inside e there) last

/-- `Add`, up to the test of the size, adds one entry to the block at hand. -/
theorem Built.addEntry (built : Built o b p) (lawful : o.Lawful) (ready : Ready b p) {key : Bytes}
    (greater : ∀ e ∈ p.entries, o.rank e.1 < o.rank key) (sorted : p.entries.Pairwise fun a b => o.rank a.1 < o.rank b.1) (value : Bytes) :
    ∃ p', Built o (b.addEntry o key value) p' ∧ Ready (b.addEntry o key value) p' ∧ p'.blocks = p.blocks ∧
      p'.cur = p.cur ++ [(key,value)] := by
  have readyAfter : ∀ {b' : TableBuilder} {p' : Progress} {list : List (Bytes × Bytes)}, b'.lastKey = key →
      p'.cur = list ++ [(key,value)] → Ready b' p' := by
    intro b' p' list same cur
    refine ⟨?_,fun _ => .inr (by simp [cur])⟩
    intro e found
    rw [Progress.entries,cur,← List.append_assoc,List.getLast?_concat] at found
    rw [same,← Option.some.inj found]
  cases waits : p.pending with
  | none =>
    have flag : b.pendingIndexEntry = false := by rw [built.flag,waits]; rfl
    have later : ∀ w ∈ p.done, o.rank w.key < o.rank key := by
      intro w member
      rcases ready.behind waits with none | some_
      · rw [none] at member
        cases member
      · obtain ⟨e,inside⟩ := List.exists_mem_of_ne_nil _ some_
        exact lt_trans (built.later w member e (List.mem_append_right _ inside)) (greater e (List.mem_append_right _ inside))
    obtain ⟨filterBlock,mapped,_⟩ := mapFilter_eq o (fun _ f => f.addKey key) b
    refine ⟨{ p with cur := p.cur ++ [(key,value)] },?_,readyAfter rfl rfl,rfl,rfl⟩
    have added := built.addData waits lawful.interval value later (b.numEntries + 1) filterBlock
    simp only [flag] at added
    simp only [TableBuilder.addEntry,flag,Bool.false_eq_true,if_false,mapped]
    exact added
  | some x =>
    obtain ⟨h,l⟩ := x
    obtain ⟨empty,handle⟩ := built.pending _ waits
    have flag : b.pendingIndexEntry = true := by rw [built.flag,waits]; rfl
    have member : (h,l) ∈ p.blocks := by simp [Progress.blocks,waits]
    obtain ⟨upper,z,last,lastKey⟩ := built.lastKey_pending ready sorted waits
    obtain ⟨low,high⟩ := lawful.separator b.lastKey key (lastKey ▸ greater z last)
    have indexed := built.addIndexEntry waits (o.findShortestSeparator b.lastKey key) fun e there => (upper e there).trans low
    have later : ∀ w ∈ p.done ++ [⟨o.findShortestSeparator b.lastKey key,h,l⟩], o.rank w.key < o.rank key := by
      intro w present
      rcases List.mem_append.mp present with old | new
      · obtain ⟨e,there⟩ := List.exists_mem_of_ne_nil _ (built.ok _ member).2
        have rest : e ∈ p.rest := by
          simp only [Progress.rest,waits,empty]
          simpa using there
        exact lt_trans (built.later w old e rest) (greater e (List.mem_append_left _ (List.mem_flatMap.mpr ⟨(h,l),member,there⟩)))
      · obtain rfl := List.mem_singleton.mp new
        exact high
    obtain ⟨filterBlock,mapped,_⟩ := mapFilter_eq o (fun _ f => f.addKey key)
      (b.addIndexEntry (o.findShortestSeparator b.lastKey key))
    refine ⟨⟨p.done ++ [⟨o.findShortestSeparator b.lastKey key,h,l⟩],none,[] ++ [(key,value)]⟩,?_,readyAfter rfl rfl,?_,?_⟩
    · simp only [TableBuilder.addEntry,flag,if_true,mapped]
      exact indexed.addData rfl lawful.interval value later _ _
    · simp [Progress.blocks,waits]
    · rw [empty]

/-- A block is written behind all others. -/
theorem writeBlock_stored (offset : b.offset = b.file.length) (lawful : o.Lawful) (raw : Bytes) :
    Stored o (b.writeBlock o raw).2.file (b.writeBlock o raw).1 raw := by
  refine ⟨b.file,_,_,[],?_,offset.symm,rfl,unpacks_blockContents lawful raw⟩
  simp only [TableBuilder.writeBlock,TableBuilder.writeRawBlock,List.append_nil,List.append_assoc]

theorem writeRawBlock_eq (contents : Bytes) (type : CompressionType) (b : TableBuilder) :
    (b.writeRawBlock contents type).2 = { b with
      file := b.file ++ (contents ++ trailer contents type)
      offset := b.offset + (contents ++ trailer contents type).length } := by
  rw [TableBuilder.writeRawBlock,List.append_assoc,List.length_append]
  rfl

/-- The bytes of a block in the file. -/
def blockBytes (o : Options T) (raw : Bytes) : Bytes :=
  (TableBuilder.blockContents o raw).1 ++ trailer (TableBuilder.blockContents o raw).1 (TableBuilder.blockContents o raw).2

omit [LinearOrder T] in
theorem writeBlock_eq (o : Options T) (raw : Bytes) (b : TableBuilder) :
    (b.writeBlock o raw).2 = { b with file := b.file ++ blockBytes o raw, offset := b.offset + (blockBytes o raw).length } :=
  writeRawBlock_eq _ _ b

omit [LinearOrder T] in
theorem flush_eq (o : Options T) {b : TableBuilder} (some_ : b.dataBlock.isEmpty = false) : ∃ filterBlock,
    b.flush o = { b with
      file := b.file ++ blockBytes o b.dataBlock.finish
      offset := b.offset + (blockBytes o b.dataBlock.finish).length
      dataBlock := .new
      pendingIndexEntry := true
      pendingHandle := (b.writeBlock o b.dataBlock.finish).1
      filterBlock := filterBlock } ∧
    (∀ policy, o.filterPolicy = some policy →
      filterBlock = b.filterBlock.map fun f => f.startBlock policy (b.offset + (blockBytes o b.dataBlock.finish).length)) ∧
    (o.filterPolicy = none → filterBlock = b.filterBlock) := by
  obtain ⟨filterBlock,mapped,filters⟩ := mapFilter_eq o (fun policy f => f.startBlock policy (b.offset + (blockBytes o b.dataBlock.finish).length))
    { b with
      file := b.file ++ blockBytes o b.dataBlock.finish
      offset := b.offset + (blockBytes o b.dataBlock.finish).length
      dataBlock := .new
      pendingIndexEntry := true
      pendingHandle := (b.writeBlock o b.dataBlock.finish).1 }
  refine ⟨filterBlock,?_,filters⟩
  have written := writeBlock_eq o b.dataBlock.finish b
  simp only [TableBuilder.flush,some_,Bool.false_eq_true,if_false,written]
  exact mapped

/-- `Flush` turns the block at hand into one that waits. -/
theorem Built.flush (built : Built o b p) (lawful : o.Lawful) (ready : Ready b p) (small : b.dataBlock.finish.length < 2^32) :
    ∃ p', Built o (b.flush o) p' ∧ Ready (b.flush o) p' ∧ p'.entries = p.entries ∧ p'.cur = [] ∧
      ((p.cur = [] ∧ b.flush o = b ∧ p' = p) ∨
        (p.cur ≠ [] ∧ ∃ x, p'.blocks = p.blocks ++ [x] ∧ x.1.offset = b.offset ∧ x.2.entries = p.cur)) := by
  have nothing := built.data.isEmpty
  by_cases empty : p.cur = []
  · have same : b.flush o = b := by
      rw [TableBuilder.flush,nothing,empty]
      rfl
    rw [same]
    exact ⟨p,built,ready,rfl,empty,.inl ⟨empty,rfl,rfl⟩⟩
  · have none_ : p.pending = none := by
      cases waits : p.pending with
      | none => rfl
      | some x => exact absurd (built.pending x waits).1 empty
    obtain ⟨filterBlock,flushed,_,_⟩ := flush_eq o (nothing.trans (List.isEmpty_eq_false_iff.mpr empty))
    obtain ⟨l,laid,entries⟩ := built.data
    have finished := laid.finish
    rw [finished] at small flushed
    have more := built.extend (blockBytes o l.bytes) filterBlock
    have there := writeBlock_stored (o := o) built.offset lawful l.bytes
    rw [writeBlock_eq] at there
    have blocks : (⟨p.done,some ((b.writeBlock o l.bytes).1,l),[]⟩ : Progress).blocks = p.blocks ++ [((b.writeBlock o l.bytes).1,l)] := by
      simp [Progress.blocks,none_]
    have rest : (⟨p.done,some ((b.writeBlock o l.bytes).1,l),[]⟩ : Progress).rest = p.rest := by
      simp [Progress.rest,none_,entries]
    have all : (⟨p.done,some ((b.writeBlock o l.bytes).1,l),[]⟩ : Progress).entries = p.entries := by
      simp [Progress.entries,blocks,entries]
    refine ⟨⟨p.done,some ((b.writeBlock o l.bytes).1,l),[]⟩,?_,?_,all,rfl,.inr ⟨empty,_,blocks,rfl,entries⟩⟩
    · rw [flushed]
      refine ⟨more.offset,BlockBuilder.new_holds,built.index,?_,?_,?_,built.upper,built.lower,?_,rfl,?_⟩
      · intro x member
        rw [blocks] at member
        rcases List.mem_append.mp member with old | new
        · exact more.stored x old
        · obtain rfl := List.mem_singleton.mp new
          exact there
      · intro x member
        rw [blocks] at member
        rcases List.mem_append.mp member with old | new
        · exact built.ok x old
        · obtain rfl := List.mem_singleton.mp new
          exact ⟨⟨laid.shape,small⟩,by rw [entries]; exact empty⟩
      · rw [blocks]
        refine List.pairwise_append.mpr ⟨built.ordered,List.pairwise_singleton _ _,?_⟩
        intro x member y new
        obtain rfl := List.mem_singleton.mp new
        have within := (built.stored x member).within
        show x.1.offset < b.offset
        rw [built.offset]
        have five : kBlockTrailerSize = 5 := rfl
        omega
      · rw [rest]
        exact built.later
      · intro x same
        obtain rfl := Option.some.inj same
        exact ⟨rfl,rfl⟩
    · rw [flushed]
      refine ⟨?_,fun none => nomatch none⟩
      intro e last
      rw [all] at last
      exact ready.lastKey e last

/-- The filter builder has the keys of all blocks. -/
def Filtered (o : Options T) (counted : Prop) (b : TableBuilder) (p : Progress) : Prop :=
  ∀ policy, o.filterPolicy = some policy → ∃ f, b.filterBlock = some f ∧ f.Covers policy counted p.keys b.offset (p.cur.map Prod.fst)

/-- The block at hand has 32-bit offsets, and its keys can be counted where that is asked. -/
structure Bounded (counted : Prop) (b : TableBuilder) : Prop where
  data : b.dataBlock.finish.length < 2^32
  keys : counted → ∀ f, b.filterBlock = some f → f.keys.length < 2^31

structure Good (o : Options T) (counted : Prop) (b : TableBuilder) (p : Progress) : Prop where
  built : Built o b p
  ready : Ready b p
  filtered : Filtered o counted b p
  bounded : Bounded counted b

variable {counted : Prop}

theorem new_good (o : Options T) (counted : Prop) : Good o counted (.new o) ⟨[],none,[]⟩ := by
  refine ⟨new_built o,⟨?_,fun _ => .inl rfl⟩,?_,⟨show BlockBuilder.new.finish.length < 2^32 by decide,?_⟩⟩
  · intro e none
    cases none
  · intro policy given
    exact ⟨_,by rw [TableBuilder.new,given]; rfl,FilterBlockBuilder.new_covers policy counted⟩
  · intro _ f there
    rw [TableBuilder.new] at there
    obtain ⟨policy,_,rfl⟩ := Option.map_eq_some_iff.mp there
    exact show ([] : List Bytes).length < 2^31 by decide

omit [LinearOrder T] in
theorem addEntry_filterBlock {policy : FilterPolicy} (given : o.filterPolicy = some policy) (b : TableBuilder) (key value : Bytes) :
    (b.addEntry o key value).filterBlock = b.filterBlock.map (·.addKey key) ∧ (b.addEntry o key value).offset = b.offset := by
  simp only [TableBuilder.addEntry,TableBuilder.mapFilter,given]
  split
  · exact ⟨rfl,rfl⟩
  · exact ⟨rfl,rfl⟩

theorem Good.addEntry (good : Good o counted b p) (lawful : o.Lawful) {key value : Bytes}
    (greater : ∀ e ∈ p.entries, o.rank e.1 < o.rank key) (sorted : p.entries.Pairwise fun a b => o.rank a.1 < o.rank b.1)
    (bounded : Bounded counted (b.addEntry o key value)) :
    ∃ p', Good o counted (b.addEntry o key value) p' ∧ p'.entries = p.entries ++ [(key,value)] := by
  obtain ⟨p',built,ready,blocks,cur⟩ := good.built.addEntry lawful good.ready greater sorted value
  refine ⟨p',⟨built,ready,?_,bounded⟩,?_⟩
  · intro policy given
    obtain ⟨f,there,covers⟩ := good.filtered policy given
    obtain ⟨filterBlock,offset⟩ := addEntry_filterBlock given b key value
    refine ⟨f.addKey key,by rw [filterBlock,there]; rfl,?_⟩
    rw [offset,Progress.keys,blocks,cur,List.map_append]
    exact covers.addKey key
  · rw [Progress.entries,blocks,cur,Progress.entries,List.append_assoc]

theorem Good.flush (good : Good o counted b p) (lawful : o.Lawful) :
    ∃ p', Good o counted (b.flush o) p' ∧ p'.entries = p.entries ∧ p'.cur = [] := by
  obtain ⟨p',built,ready,entries,cur,⟨empty,same,rfl⟩ | ⟨some_,x,blocks,offset,inside⟩⟩ :=
    good.built.flush lawful good.ready good.bounded.data
  · rw [same]
    exact ⟨p',good,rfl,empty⟩
  · obtain ⟨filterBlock,flushed,filters,without⟩ := flush_eq o (good.built.data.isEmpty.trans (List.isEmpty_eq_false_iff.mpr some_))
    refine ⟨p',⟨built,ready,?_,?_,?_⟩,entries,cur⟩
    · intro policy given
      obtain ⟨f,there,covers⟩ := good.filtered policy given
      have started := covers.startBlock (Nat.le_add_right b.offset (blockBytes o b.dataBlock.finish).length)
        fun yes => good.bounded.keys yes f there
      refine ⟨f.startBlock policy (b.offset + (blockBytes o b.dataBlock.finish).length),?_,?_⟩
      · rw [flushed,filters policy given,there]
        rfl
      · rw [flushed,cur,Progress.keys,blocks,List.map_append,List.map_singleton,offset,inside]
        exact started
    · rw [flushed]
      exact show BlockBuilder.new.finish.length < 2^32 by decide
    · intro yes f there
      rw [flushed] at there
      cases given : o.filterPolicy with
      | none => exact good.bounded.keys yes f ((without given).symm.trans there)
      | some policy =>
        obtain ⟨f',held,rfl⟩ := Option.map_eq_some_iff.mp ((filters policy given).symm.trans there)
        rcases FilterBlockBuilder.generateUntil_keys policy f' ((b.offset + (blockBytes o b.dataBlock.finish).length) / kFilterBase)
          ((b.offset + (blockBytes o b.dataBlock.finish).length) / kFilterBase) with same | none
        · rw [FilterBlockBuilder.startBlock,same]
          exact good.bounded.keys yes f' held
        · rw [FilterBlockBuilder.startBlock,none]
          decide

theorem Good.add (good : Good o counted b p) (lawful : o.Lawful) {key value : Bytes}
    (greater : ∀ e ∈ p.entries, o.rank e.1 < o.rank key) (sorted : p.entries.Pairwise fun a b => o.rank a.1 < o.rank b.1)
    (bounded : Bounded counted (b.addEntry o key value)) :
    ∃ p', Good o counted (b.add o key value) p' ∧ p'.entries = p.entries ++ [(key,value)] := by
  obtain ⟨p₁,good₁,entries₁⟩ := good.addEntry lawful greater sorted bounded
  rw [TableBuilder.add]
  split
  · obtain ⟨p₂,good₂,entries₂,_⟩ := good₁.flush lawful
    exact ⟨p₂,good₂,entries₂.trans entries₁⟩
  · exact ⟨p₁,good₁,entries₁⟩

/-- All calls, one by one. -/
theorem Good.calls (lawful : o.Lawful) (calls : List Call) {b : TableBuilder} {p : Progress} (good : Good o counted b p)
    (sorted : (p.entries ++ added calls).Pairwise fun a b => o.rank a.1 < o.rank b.1)
    (bounded : ∀ b' ∈ b.states o calls, Bounded counted b') :
    ∃ p', Good o counted (calls.foldl (·.call o) b) p' ∧ p'.entries = p.entries ++ added calls := by
  induction calls generalizing b p with
  | nil => exact ⟨p,good,by rw [added]; simp⟩
  | cons c calls ih =>
    cases c with
    | flush =>
      obtain ⟨p₁,good₁,entries₁,_⟩ := good.flush lawful
      obtain ⟨p₂,good₂,entries₂⟩ := ih good₁ (by rw [entries₁]; exact sorted) bounded
      exact ⟨p₂,good₂,entries₂.trans (by rw [entries₁]; rfl)⟩
    | add key value =>
      have split : p.entries ++ added (.add key value :: calls) = (p.entries ++ [(key,value)]) ++ added calls := by
        rw [List.append_assoc]
        rfl
      rw [split] at sorted ⊢
      obtain ⟨front,_,_⟩ := List.pairwise_append.mp sorted
      obtain ⟨old,_,below⟩ := List.pairwise_append.mp front
      obtain ⟨p₁,good₁,entries₁⟩ := good.add lawful (fun e member => below e member _ (List.mem_singleton.mpr rfl)) old
        (bounded _ (List.mem_cons_self ..))
      obtain ⟨p₂,good₂,entries₂⟩ := ih good₁ (by rw [entries₁]; exact sorted) fun b' member => bounded b' (List.mem_cons_of_mem _ member)
      exact ⟨p₂,good₂,entries₂.trans (by rw [entries₁])⟩

end Build

end LevelDB.Sstable
