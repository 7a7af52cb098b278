import LevelDB.TableRead
import Mathlib.Data.List.Nodup

/-! The finished table: what `Finish` leaves in the file, how the table opens, and its
iterator as a cursor over the entries that were added. -/
namespace LevelDB.Sstable

section Finish
variable {T : Type} [LinearOrder T] {o : Options T} {counted : Prop} {b : TableBuilder} {p : Progress}

omit [LinearOrder T] in
theorem writeFilter_eq (o : Options T) (b : TableBuilder) : ∃ more,
    (b.writeFilter o).2 = { b with file := b.file ++ more, offset := b.offset + more.length } ∧
    ∀ policy f, o.filterPolicy = some policy → b.filterBlock = some f →
      (b.writeFilter o).1 = some ⟨b.offset,(f.finish policy).length⟩ ∧ more = f.finish policy ++ trailer (f.finish policy) .noCompression := by
  rw [TableBuilder.writeFilter]
  cases given : o.filterPolicy with
  | none =>
    refine ⟨[],?_,fun policy f same => nomatch same⟩
    simp
  | some policy =>
    cases held : b.filterBlock with
    | none =>
      refine ⟨[],?_,fun policy f _ same => nomatch same⟩
      simp [← held]
    | some f =>
      refine ⟨f.finish policy ++ trailer (f.finish policy) .noCompression,?_,?_⟩
      · simp only [writeRawBlock_eq,held]
      · intro policy' f' same same'
        obtain rfl := Option.some.inj same
        obtain rfl := Option.some.inj same'
        exact ⟨rfl,rfl⟩

/-- The last block gets its index entry. -/
theorem Built.finishIndex (built : Built o b p) (lawful : o.Lawful) (ready : Ready b p)
    (sorted : p.entries.Pairwise fun a b => o.rank a.1 < o.rank b.1) (empty : p.cur = []) :
    ∃ done, Built o (b.finishIndex o) ⟨done,none,[]⟩ ∧ (⟨done,none,[]⟩ : Progress).blocks = p.blocks := by
  rw [TableBuilder.finishIndex,built.flag]
  cases waits : p.pending with
  | none =>
    refine ⟨p.done,?_,by simp [Progress.blocks,waits]⟩
    have same : p = ⟨p.done,none,[]⟩ := by
      obtain ⟨done,pending,cur⟩ := p
      subst waits
      subst empty
      rfl
    rw [← same]
    exact built
  | some x =>
    obtain ⟨h,l⟩ := x
    obtain ⟨upper,_⟩ := built.lastKey_pending ready sorted waits
    refine ⟨p.done ++ [⟨o.findShortSuccessor b.lastKey,h,l⟩],?_,by simp [Progress.blocks,waits]⟩
    exact built.addIndexEntry waits _ fun e there => (upper e there).trans (lawful.successor _)

/-- A finished table: its blocks, and where the footer finds the index. -/
structure Finished (o : Options T) (b : TableBuilder) (file : Bytes) (done : List Written) (footer : Footer) : Prop where
  ends : ∃ front, file = front ++ footer.encode
  stored : ∀ w ∈ done, Stored o file w.handle w.layout.bytes
  ok : ∀ w ∈ done, w.layout.Ok ∧ w.layout.entries ≠ []
  ordered : done.Pairwise fun v w => v.handle.offset < w.handle.offset
  upper : ∀ w ∈ done, ∀ e ∈ w.layout.entries, o.rank e.1 ≤ o.rank w.key
  lower : done.Pairwise fun v w => ∀ e ∈ w.layout.entries, o.rank v.key < o.rank e.1
  holds : (b.finishIndex o).indexBlock.Holds (done.map Written.entry)
  index : Stored o file footer.indexHandle (b.finishIndex o).indexBlock.finish
  metaindex : Stored o file footer.metaindexHandle (TableBuilder.metaindexBlock o (b.writeFilter o).1).finish
  filter : ∀ policy f, o.filterPolicy = some policy → b.filterBlock = some f →
    ∃ h, (b.writeFilter o).1 = some h ∧ Stored o file h (f.finish policy)

omit [LinearOrder T] in
/-- `Finish`, write by write. -/
theorem finish_file (o : Options T) (b : TableBuilder) : (b.finish o).file =
    let filter := (b.flush o).writeFilter o
    let metaindex := filter.2.writeBlock o (TableBuilder.metaindexBlock o filter.1).finish
    let last := metaindex.2.finishIndex o
    let index := last.writeBlock o last.indexBlock.finish
    index.2.file ++ Footer.encode ⟨metaindex.1,index.1⟩ := rfl

omit [LinearOrder T] in
/-- The index does not depend on what is in the file. -/
theorem finishIndex_extend (o : Options T) (b : TableBuilder) (file : Bytes) (offset : Nat) :
    (TableBuilder.finishIndex o { b with file := file, offset := offset }).indexBlock = (b.finishIndex o).indexBlock := by
  rw [TableBuilder.finishIndex,TableBuilder.finishIndex]
  split
  · rfl
  · rfl

omit [LinearOrder T] in
theorem finishIndex_file (o : Options T) (b : TableBuilder) : (b.finishIndex o).file = b.file := by
  rw [TableBuilder.finishIndex]
  split
  · rfl
  · rfl

/-- The writes behind the data blocks keep these, and each is found where its handle says. -/
theorem Built.finish (built : Built o b p) (lawful : o.Lawful) (ready : Ready b p)
    (sorted : p.entries.Pairwise fun a b => o.rank a.1 < o.rank b.1) (empty : p.cur = []) (raw : Bytes) {last : TableBuilder}
    (same : last = (b.writeBlock o raw).2.finishIndex o) : ∃ done,
      (⟨done,none,[]⟩ : Progress).blocks = p.blocks ∧ Built o (last.writeBlock o last.indexBlock.finish).2 ⟨done,none,[]⟩ ∧
      last.indexBlock = (b.finishIndex o).indexBlock ∧
      Stored o (last.writeBlock o last.indexBlock.finish).2.file (last.writeBlock o last.indexBlock.finish).1 last.indexBlock.finish ∧
      Stored o (last.writeBlock o last.indexBlock.finish).2.file (b.writeBlock o raw).1 raw ∧
      ∃ more, (last.writeBlock o last.indexBlock.finish).2.file = b.file ++ more := by
  have first := writeBlock_eq o raw b
  have built₁ : Built o (b.writeBlock o raw).2 p := by
    rw [first]
    exact built.extend _ _
  have ready₁ : Ready (b.writeBlock o raw).2 p := by
    rw [first]
    exact ⟨ready.lastKey,ready.behind⟩
  obtain ⟨done,built₂,blocks⟩ := built₁.finishIndex lawful ready₁ sorted empty
  rw [← same] at built₂
  have file : last.file = b.file ++ blockBytes o raw := by
    rw [same,finishIndex_file,first]
  have second := writeBlock_eq o last.indexBlock.finish last
  refine ⟨done,blocks,?_,?_,writeBlock_stored built₂.offset lawful _,?_,?_⟩
  · rw [second]
    exact built₂.extend _ _
  · rw [same,first]
    exact finishIndex_extend o b _ _
  · have here := writeBlock_stored (o := o) built.offset lawful raw
    rw [second]
    show Stored o (last.file ++ _) _ _
    rw [file]
    rw [first] at here
    exact here.append _
  · rw [second]
    show ∃ more, last.file ++ _ = _
    rw [file,List.append_assoc]
    exact ⟨_,rfl⟩

theorem Good.finish (good : Good o counted b p) (lawful : o.Lawful) (sorted : p.entries.Pairwise fun a b => o.rank a.1 < o.rank b.1) :
    ∃ p₁ done footer, Good o counted (b.flush o) p₁ ∧ p₁.blocks = done.map (fun w => (w.handle,w.layout)) ∧
      Finished o (b.flush o) (b.finish o).file done footer ∧ (∀ w ∈ done, w.handle.offset ≤ footer.metaindexHandle.offset) ∧
      done.flatMap (fun w => w.layout.entries) = p.entries := by
  obtain ⟨p₁,good₁,entries₁,empty⟩ := good.flush lawful
  obtain ⟨more,second,filters⟩ := writeFilter_eq o (b.flush o)
  have built₂ : Built o ((b.flush o).writeFilter o).2 p₁ := by
    rw [second]
    exact good₁.built.extend more _
  have ready₂ : Ready ((b.flush o).writeFilter o).2 p₁ := by
    rw [second]
    exact ⟨good₁.ready.lastKey,good₁.ready.behind⟩
  obtain ⟨done,blocks,built,index,inIndex,inMeta,rest,grown⟩ := built₂.finish lawful ready₂ (by rw [entries₁]; exact sorted) empty
    (TableBuilder.metaindexBlock o ((b.flush o).writeFilter o).1).finish rfl
  have sameIndex : (((b.flush o).writeFilter o).2.finishIndex o).indexBlock = ((b.flush o).finishIndex o).indexBlock := by
    rw [second]
    exact finishIndex_extend o (b.flush o) _ _
  rw [sameIndex] at index
  have whole : ∀ w ∈ done, (w.handle,w.layout) ∈ (⟨done,none,[]⟩ : Progress).blocks := fun w member => by
    simp only [Progress.blocks,Option.toList_none,List.append_nil]
    exact List.mem_map_of_mem member
  have listed : p₁.blocks = done.map fun w => (w.handle,w.layout) := by
    rw [← blocks]
    simp [Progress.blocks]
  refine ⟨p₁,done,_,good₁,listed,⟨⟨_,finish_file o b⟩,?_,?_,?_,built.upper,built.lower,?_,?_,?_,?_⟩,?_,?_⟩
  · intro w member
    rw [finish_file]
    exact (built.stored _ (whole w member)).append _
  · intro w member
    exact built.ok _ (whole w member)
  · have ordered := built.ordered
    simp only [Progress.blocks,Option.toList_none,List.append_nil,List.pairwise_map] at ordered
    exact ordered
  · rw [← index]
    exact built.index
  · rw [finish_file,← index]
    exact inIndex.append _
  · rw [finish_file]
    exact inMeta.append _
  · intro policy f given held
    obtain ⟨handle,bytes⟩ := filters policy f given held
    refine ⟨_,handle,?_⟩
    rw [finish_file]
    simp only [grown]
    refine Stored.append (Stored.append ?_ _) _
    rw [second,bytes]
    refine ⟨(b.flush o).file,f.finish policy,.noCompression,[],?_,good₁.built.offset.symm,rfl,rfl⟩
    rw [List.append_nil]
  · intro w member
    have within := (built₂.stored _ (blocks ▸ whole w member)).within
    rw [← built₂.offset] at within
    exact (Nat.le_add_right _ _).trans (Nat.le_of_add_right_le within)
  · rw [← entries₁,Progress.entries,listed,empty,List.flatMap_map,List.append_nil]

end Finish

section Open
variable {T : Type} [LinearOrder T] {o : Options T} {b : TableBuilder} {file : Bytes} {done : List Written} {footer : Footer}

omit [LinearOrder T] in
theorem readFilter_eq (o : Options T) (value : Bytes) (t : Table) : ∃ filter, t.readFilter o value = { t with filter } := by
  rw [Table.readFilter]
  split
  · exact ⟨t.filter,rfl⟩
  · split
    · exact ⟨t.filter,rfl⟩
    · exact ⟨_,rfl⟩

omit [LinearOrder T] in
/-- `ReadMeta` changes the filter only. -/
theorem readMeta_eq (o : Options T) (footer : Footer) (t : Table) : ∃ filter, t.readMeta o footer = { t with filter } := by
  rw [Table.readMeta]
  split
  · exact ⟨t.filter,rfl⟩
  · split
    · exact ⟨t.filter,rfl⟩
    · simp only
      split
      · split
        · exact readFilter_eq o _ t
        · exact ⟨t.filter,rfl⟩
      · exact ⟨t.filter,rfl⟩

omit [LinearOrder T] in
theorem readMeta_frame (o : Options T) (footer : Footer) (t : Table) :
    (t.readMeta o footer).file = t.file ∧ (t.readMeta o footer).indexBlock = t.indexBlock := by
  obtain ⟨filter,same⟩ := readMeta_eq o footer t
  simp only [same,and_self]

/-- A finished table opens. -/
theorem Finished.open (finished : Finished o b file done footer) (small : file.length < 2^64) : Table.open o file =
    .ok ((Table.mk file footer.metaindexHandle none (Block.open (b.finishIndex o).indexBlock.finish)).readMeta o footer) := by
  obtain ⟨front,ends⟩ := finished.ends
  have length := footer.length_encode
  have total := congrArg List.length ends
  rw [List.length_append,length] at total
  have index := finished.index.within
  have metaindex := finished.metaindex.within
  have tail : read file (file.length - Footer.kEncodedLength) Footer.kEncodedLength = footer.encode := by
    rw [read,total,Nat.add_sub_cancel,ends,List.drop_left,← length,List.take_length]
  rw [Table.open,if_neg (by omega),tail,Footer.decode_encode (by omega) (by omega)]
  show (readBlock o o.paranoidChecks file footer.indexHandle).bind _ = _
  rw [readBlock_stored finished.index]
  rfl

theorem Finished.blockReader (finished : Finished o b file done footer) (small : file.length < 2^64) {t : Table} (same : t.file = file)
    (verifyChecksums : Bool) {w : Written} (member : w ∈ done) :
    t.blockReader o verifyChecksums w.handle.encode = (Block.open w.layout.bytes).newIterator := by
  have stored := finished.stored w member
  have within := stored.within
  have decoded := BlockHandle.decode_encode (h := w.handle) (by omega) (by omega) []
  rw [List.append_nil] at decoded
  rw [Table.blockReader,decoded]
  simp only [same,readBlock_stored stored]

/-- Index keys grow with the blocks. -/
theorem Finished.sorted_index (finished : Finished o b file done footer) :
    (done.map Written.entry).Pairwise fun x y => o.rank x.1 < o.rank y.1 := by
  rw [List.pairwise_map]
  refine finished.lower.imp_of_mem ?_
  intro v w _ member below
  obtain ⟨e,there⟩ := List.exists_mem_of_ne_nil _ (finished.ok w member).2
  exact lt_of_lt_of_le (below e there) (finished.upper w member e there)

theorem Finished.fits (finished : Finished o b file done footer) (small : file.length < 2^64) {t : Table} (same : t.file = file)
    (verifyChecksums : Bool) {l : BlockLayout} (ok : l.Ok) (entries : l.entries = done.map Written.entry)
    (sorted : (done.flatMap fun w => w.layout.entries).Pairwise fun x y => o.rank x.1 < o.rank y.1) :
    TwoLevelIterator.Fits ((DataIterator.ops o.rank).mapEntry Prod.snd) (fun w => o.rank w.key) done (DataIterator.At l)
      (fun w => w.handle.encode) (DataIterator.ops o.rank) (fun e => o.rank e.1) (t.blockReader o verifyChecksums)
      (fun w => w.layout.entries) (fun w => DataIterator.At w.layout) := by
  have blocks := (List.pairwise_flatMap.mp sorted).1
  have index := finished.sorted_index
  rw [← entries] at index
  have cursor := DataIterator.isCursor ok index
  rw [entries] at cursor
  constructor
  · exact cursor.isIndex Prod.snd
  · intro w member
    exact DataIterator.isCursor (finished.ok w member).1 (blocks w member)
  · intro w member
    rw [finished.blockReader small same verifyChecksums member]
    exact ⟨_,DataIterator.newIterator_at (finished.ok w member).1⟩
  · intro v hv w hw equal
    have first := (finished.stored v hv).within
    have second := (finished.stored w hw).within
    have one := BlockHandle.decode_encode (h := v.handle) (by omega) (by omega) []
    have two := BlockHandle.decode_encode (h := w.handle) (by omega) (by omega) []
    rw [equal,two] at one
    have handles : w.handle = v.handle := congrArg Prod.fst (Except.ok.inj one)
    have distinct : (done.map fun w => w.handle.offset).Nodup := by
      rw [List.Nodup,List.pairwise_map]
      exact finished.ordered.imp fun less => ne_of_lt less
    exact List.inj_on_of_nodup_map distinct hv hw (by rw [handles])
  · exact finished.upper
  · exact finished.lower

end Open

/-- What the format has room for: 32 bits for offsets in a block, 64 for those in the file. -/
structure FitsFormat {T : Type} (o : Options T) (calls : List Call) : Prop where
  data : ∀ b ∈ (TableBuilder.new o).states o calls, b.dataBlock.finish.length < 2^32
  index : (((TableBuilder.run o calls).flush o).finishIndex o).indexBlock.finish.length < 2^32
  file : (buildTable o calls).length < 2^64

section RoundTrip
variable {T : Type} [LinearOrder T] {o : Options T} {calls : List Call}

/-- The table of all calls, finished. -/
theorem run_finished (lawful : o.Lawful) (counted : Prop)
    (sorted : (added calls).Pairwise fun x y => o.rank x.1 < o.rank y.1)
    (bounded : ∀ b ∈ (TableBuilder.new o).states o calls, Bounded counted b) :
    ∃ p done footer, Good o counted ((TableBuilder.run o calls).flush o) p ∧ p.blocks = done.map (fun w => (w.handle,w.layout)) ∧
      Finished o ((TableBuilder.run o calls).flush o) (buildTable o calls) done footer ∧
      (∀ w ∈ done, w.handle.offset ≤ footer.metaindexHandle.offset) ∧
      done.flatMap (fun w => w.layout.entries) = added calls := by
  obtain ⟨p,good,entries⟩ := (new_good o counted).calls lawful calls sorted bounded
  rw [show (⟨[],none,[]⟩ : Progress).entries = [] from rfl,List.nil_append] at entries
  obtain ⟨p₁,done,footer,good₁,blocks,finished,behind,all⟩ := good.finish lawful (by rw [entries]; exact sorted)
  exact ⟨p₁,done,footer,good₁,blocks,finished,behind,all.trans entries⟩

/-- A table opens, and its iterator moves like a cursor over the entries that were added,
without an error in any block. -/
theorem table_round_trip (o : Options T) (lawful : o.Lawful) (calls : List Call)
    (sorted : (added calls).Pairwise fun x y => o.rank x.1 < o.rank y.1) (fits : FitsFormat o calls) (verifyChecksums : Bool) :
    ∃ t, Table.open o (buildTable o calls) = .ok t ∧ ∀ moves, Legal (t.iteratorOps o verifyChecksums) t.newIterator moves →
      (t.iteratorOps o verifyChecksums).current ((t.iteratorOps o verifyChecksums).run moves t.newIterator) =
        (ListIter.ops fun e => o.rank e.1).current ((ListIter.ops fun e => o.rank e.1).run moves ⟨added calls,(added calls).length⟩) ∧
      ((t.iteratorOps o verifyChecksums).run moves t.newIterator).index.status = none ∧
      ∀ held, ((t.iteratorOps o verifyChecksums).run moves t.newIterator).data = some held → held.2.status = none := by
  obtain ⟨p,done,footer,_,_,finished,_,all⟩ := run_finished lawful False sorted fun b member => ⟨fits.data b member,False.elim⟩
  obtain ⟨l,laid,entries⟩ := finished.holds
  have finish := laid.finish
  have index := fits.index
  rw [finish] at index
  have ok : l.Ok := ⟨laid.shape,index⟩
  refine ⟨_,finished.open fits.file,?_⟩
  generalize opened : Table.readMeta o footer _ = t
  have frame := readMeta_frame o footer
    (Table.mk (buildTable o calls) footer.metaindexHandle none (Block.open (((TableBuilder.run o calls).flush o).finishIndex o).indexBlock.finish))
  rw [opened,finish] at frame
  have cursor := TwoLevelIterator.isCursor (finished.fits fits.file frame.1 verifyChecksums ok entries (by rw [all]; exact sorted))
  rw [all] at cursor
  have room : done.length ≤ t.newIterator.blocks := by
    have few := l.length_le_body
    have data : (Block.open l.bytes).data = l.bytes := by
      rw [Block.open]
      dsimp only
      split
      · rfl
      · split <;> rfl
    rw [← l.length_entries,entries,List.length_map] at few
    rw [Table.newIterator,frame.2]
    show done.length ≤ (Block.open l.bytes).data.length
    rw [data,l.length_bytes]
    omega
  have start : done.length ≤ t.newIterator.blocks ∧ TwoLevelIterator.At done (DataIterator.At l) (fun w => w.handle.encode)
      (fun w => w.layout.entries) (fun w => DataIterator.At w.layout) t.newIterator (added calls).length := by
    refine ⟨room,?_⟩
    rw [← all,Table.newIterator,frame.2]
    exact .spent (DataIterator.newIterator_at ok) rfl
  intro moves legal
  obtain ⟨j,⟨-,stands⟩,_⟩ := cursor.follows moves start legal
  refine ⟨cursor.shows moves start legal,?_,?_⟩
  · obtain ⟨k,indexed⟩ := stands.indexed
    exact indexed.fine
  · intro held there
    obtain ⟨w,_,_,i,at_⟩ := stands.held held there
    exact at_.fine

end RoundTrip

/-- A codec that is not there. -/
def Codec.absent : Codec := ⟨fun _ => none,fun _ => none,fun _ => none⟩

theorem Codec.absent_lawful : Codec.absent.Lawful := by
  constructor
  · intro raw packed impossible
    cases impossible
  · intro raw packed impossible
    cases impossible

/-- Keys by their bytes, two entries to a restart and about three to a block. -/
def sampleOptions : Options (List Nat) where
  rank := bytewise
  findShortestSeparator start _ := start
  findShortSuccessor key := key
  blockSize := 30
  blockRestartInterval := 2
  compression := .snappyCompression
  snappy := .absent
  zstd := .absent
  filterPolicy := some ⟨[0x61],fun keys => keys.flatten,fun _ _ => true⟩
  paranoidChecks := true

theorem sampleOptions_lawful : sampleOptions.Lawful := by
  constructor
  · intro start limit less
    exact ⟨le_refl _,less⟩
  · intro key
    exact le_refl _
  · decide
  · exact Codec.absent_lawful
  · exact Codec.absent_lawful

def sampleCalls : List Call := [.add [1,2] [3],.add [1,3] [4,5],.flush,.add [1,3,4] [],.add [2] [7],.add [2,2] [1,1,1]]

/-- From between two blocks to the last entry of the one behind. -/
theorem table_round_trip_sample : ∃ t, Table.open sampleOptions (buildTable sampleOptions sampleCalls) = .ok t ∧
    (t.iteratorOps sampleOptions true).current
      ((t.iteratorOps sampleOptions true).run [.seek [1,3,3],.next] t.newIterator) = some ([2],[7]) := by
  have sorted : (added sampleCalls).Pairwise fun x y => sampleOptions.rank x.1 < sampleOptions.rank y.1 := by decide
  have fits : FitsFormat sampleOptions sampleCalls := ⟨by decide,by decide,by decide +kernel⟩
  obtain ⟨t,opened,shows⟩ := table_round_trip sampleOptions sampleOptions_lawful sampleCalls sorted fits true
  have first := (shows [.seek [1,3,3]] trivial).1
  have legal : Legal (t.iteratorOps sampleOptions true) t.newIterator [.seek [1,3,3],.next] := by
    refine ⟨?_,trivial⟩
    show ((t.iteratorOps sampleOptions true).current ((t.iteratorOps sampleOptions true).run [.seek [1,3,3]] t.newIterator)).isSome
    rw [first]
    decide +kernel
  refine ⟨t,opened,?_⟩
  rw [(shows _ legal).1]
  decide

end LevelDB.Sstable
