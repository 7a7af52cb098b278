import LevelDB.EditCodec
import LevelDB.LogImages
import LevelDB.TableGet
import LevelDB.VersionBuilder

/-! The manifests of the database as bytes. `VersionSet::Recover` takes the records of a cut
file apart; the set of the deleted files comes back in another order than the edit had it, which
the builder does not see. -/
namespace LevelDB.Manifest

variable {K V : Type}

section Codes

/-- `InternalKey::Encode`: the user key, and the packed number behind it. -/
def encodeKey (code : K ≃ Bytes) (k : InternalKey K) : Bytes :=
  code k.userKey ++ Encoded.encodeFixed64 (Encoded.packSequenceAndType k.sequence k.type)

/-- `InternalKey::DecodeFrom` keeps the bytes; a key that is too short or has an unknown type is
none here. -/
def decodeKey (code : K ≃ Bytes) (key : Bytes) : Option (InternalKey K) :=
  (Sstable.parseInternalKey key).map fun k => ⟨code.symm k.userKey,k.sequence,k.type⟩

def encodeFile (code : K ≃ Bytes) (f : LevelDB.FileMetaData K) : FileMetaData :=
  ⟨f.number,f.fileSize,encodeKey code f.smallest,encodeKey code f.largest⟩

def decodeFile (code : K ≃ Bytes) (f : FileMetaData) : Option (LevelDB.FileMetaData K) :=
  (decodeKey code f.smallest).bind fun smallest => (decodeKey code f.largest).map fun largest =>
    ⟨f.number,f.fileSize,smallest,largest⟩

def encodeEdit (code : K ≃ Bytes) (comparator : Option Bytes) (e : LevelDB.VersionEdit K) : VersionEdit :=
  ⟨comparator,e.logNumber,e.prevLogNumber,e.nextFileNumber,e.lastSequence,
    e.compactPointers.map fun p => (p.1,encodeKey code p.2),(e.deletedFiles.map toLex).toFinset,
    e.newFiles.map fun n => (n.1,encodeFile code n.2)⟩

/-- A `VersionEdit` in which nothing is stored. -/
def newEdit : VersionEdit := ⟨none,none,none,none,none,[],∅,[]⟩

def Field.deleted : Field → Option (Nat × Nat)
  | .deletedFile d => some d
  | _ => none

/-- The deleted files in the order of the set, in which the builder goes through them. -/
def VersionEdit.deleted (e : VersionEdit) : List (Nat × Nat) := e.fields.filterMap Field.deleted

def decodeEdit (code : K ≃ Bytes) (e : VersionEdit) : Option (LevelDB.VersionEdit K) :=
  (e.compactPointers.mapM fun p => (decodeKey code p.2).map fun key => (p.1,key)).bind fun pointers =>
  (e.newFiles.mapM fun n => (decodeFile code n.2).map fun f => (n.1,f)).map fun files =>
    ⟨e.logNumber,e.prevLogNumber,e.nextFileNumber,e.lastSequence,pointers,e.deleted,files⟩

/-- The edit with its deleted files as a set has them. -/
def sorted (e : LevelDB.VersionEdit K) : LevelDB.VersionEdit K :=
  { e with deletedFiles := { newEdit with deletedFiles := (e.deletedFiles.map toLex).toFinset }.deleted }

variable {code : K ≃ Bytes}

theorem VersionEdit.deleted_eq (e : VersionEdit) : e.deleted = { newEdit with deletedFiles := e.deletedFiles }.deleted := by
  simp [deleted,fields,newEdit,List.filterMap_map,Function.comp_def,Field.deleted]

theorem VersionEdit.mem_deleted (e : VersionEdit) (d : Nat × Nat) : d ∈ e.deleted ↔ toLex d ∈ e.deletedFiles := by
  rw [deleted_eq]
  simp [deleted,fields,newEdit,List.filterMap_map,Function.comp_def,Field.deleted]

theorem mem_sorted (e : LevelDB.VersionEdit K) (d : Nat × Nat) : d ∈ (sorted e).deletedFiles ↔ d ∈ e.deletedFiles := by
  rw [sorted,VersionEdit.mem_deleted]
  simp

theorem length_encodeKey (code : K ≃ Bytes) (k : InternalKey K) : (encodeKey code k).length = (code k.userKey).length + 8 := by
  rw [encodeKey,List.length_append,Encoded.length_encodeFixed64]

theorem encodeKey_fits {k : InternalKey K} (small : (code k.userKey).length + 8 < 2^32) :
    encodeKey code k ≠ [] ∧ (encodeKey code k).length < 2^32 := by
  have length := length_encodeKey code k
  constructor
  · intro nothing
    rw [nothing,List.length_nil] at length
    omega
  · omega

/-- An edit is stored in full if its numbers and keys are not too long. -/
theorem encodeEdit_fits {e : LevelDB.VersionEdit K} {name : Option Bytes} (named : ∀ n ∈ name, n.length < 2^32)
    (log : ∀ n ∈ e.logNumber, n < 2^64) (prev : ∀ n ∈ e.prevLogNumber, n < 2^64)
    (next : ∀ n ∈ e.nextFileNumber, n < 2^64) (last : ∀ n ∈ e.lastSequence, n < 2^64)
    (pointers : ∀ p ∈ e.compactPointers, p.1 < kNumLevels ∧ (code p.2.userKey).length + 8 < 2^32)
    (deleted : ∀ d ∈ e.deletedFiles, d.1 < kNumLevels ∧ d.2 < 2^64)
    (new : ∀ n ∈ e.newFiles, n.1 < kNumLevels ∧ n.2.number < 2^64 ∧ n.2.fileSize < 2^64 ∧
      (code n.2.smallest.userKey).length + 8 < 2^32 ∧ (code n.2.largest.userKey).length + 8 < 2^32) :
    (encodeEdit code name e).Fits := by
  intro f member
  simp only [VersionEdit.fields,encodeEdit,List.mem_append,List.mem_map,Option.mem_toList,Finset.mem_sort,
    List.mem_toFinset] at member
  rcases member with ((((((⟨n,stored,rfl⟩ | ⟨n,stored,rfl⟩) | ⟨n,stored,rfl⟩) | ⟨n,stored,rfl⟩) | ⟨n,stored,rfl⟩) |
    ⟨_,⟨p,stored,rfl⟩,rfl⟩) | ⟨_,⟨d,stored,rfl⟩,rfl⟩) | ⟨_,⟨n,stored,rfl⟩,rfl⟩
  · exact named n stored
  · exact log n stored
  · exact prev n stored
  · exact next n stored
  · exact last n stored
  · exact ⟨(pointers p stored).1,encodeKey_fits (pointers p stored).2⟩
  · exact deleted d stored
  · obtain ⟨level,number,size,smallest,largest⟩ := new n stored
    exact ⟨level,number,size,encodeKey_fits smallest,encodeKey_fits largest⟩

theorem decodeKey_encodeKey {k : InternalKey K} (small : k.sequence ≤ kMaxSequenceNumber) :
    decodeKey code (encodeKey code k) = some k := by
  have length := length_encodeKey code k
  have user : Sstable.extractUserKey (encodeKey code k) = code k.userKey := by
    rw [Sstable.extractUserKey,length,Nat.add_sub_cancel,encodeKey,List.take_left]
  have tag : Sstable.internalTag (encodeKey code k) = k.sequence * 256 + k.type.code := by
    have whole := Encoded.decodeFixed64_encodeFixed64 (Encoded.packSequenceAndType_lt small k.type) []
    rw [List.append_nil] at whole
    rw [Sstable.internalTag,length,Nat.add_sub_cancel,encodeKey,List.drop_left,whole,Encoded.packSequenceAndType_eq small]
  have long : ¬(encodeKey code k).length < 8 := by omega
  obtain ⟨userKey,sequence,type⟩ := k
  cases type with
  | deletion =>
    have low : (sequence * 256 + ValueType.deletion.code) % 256 = 0 := by simp only [ValueType.code]; omega
    have high : (sequence * 256 + ValueType.deletion.code) / 256 = sequence := by simp only [ValueType.code]; omega
    simp [decodeKey,Sstable.parseInternalKey,long,user,tag,low,high]
  | value =>
    have low : (sequence * 256 + ValueType.value.code) % 256 = 1 := by simp only [ValueType.code]; omega
    have high : (sequence * 256 + ValueType.value.code) / 256 = sequence := by simp only [ValueType.code]; omega
    simp [decodeKey,Sstable.parseInternalKey,long,user,tag,low,high]

theorem decodeFile_encodeFile {f : LevelDB.FileMetaData K} (smallest : f.smallest.sequence ≤ kMaxSequenceNumber)
    (largest : f.largest.sequence ≤ kMaxSequenceNumber) : decodeFile code (encodeFile code f) = some f := by
  simp [decodeFile,encodeFile,decodeKey_encodeKey smallest,decodeKey_encodeKey largest]

/-- What is decoded element by element is the list that was encoded. -/
theorem mapM_map {α β : Type} {f : α → β} {g : β → Option α} (l : List α) (inverse : ∀ a ∈ l, g (f a) = some a) :
    (l.map f).mapM g = some l := by
  induction l with
  | nil => rfl
  | cons a rest ih =>
    have first := inverse a List.mem_cons_self
    have later := ih fun b member => inverse b (List.mem_cons_of_mem a member)
    simp [List.mapM_cons,first,later]

/-- The numbers in the keys of an edit are sequence numbers. -/
structure Sequenced (e : LevelDB.VersionEdit K) : Prop where
  pointers : ∀ p ∈ e.compactPointers, p.2.sequence ≤ kMaxSequenceNumber
  smallest : ∀ n ∈ e.newFiles, n.2.smallest.sequence ≤ kMaxSequenceNumber
  largest : ∀ n ∈ e.newFiles, n.2.largest.sequence ≤ kMaxSequenceNumber

theorem decodeEdit_encodeEdit {e : LevelDB.VersionEdit K} (sequenced : Sequenced e) (name : Option Bytes) :
    decodeEdit code (encodeEdit code name e) = some (sorted e) := by
  have pointers : (e.compactPointers.map fun p => (p.1,encodeKey code p.2)).mapM
      (fun p => (decodeKey code p.2).map fun key => (p.1,key)) = some e.compactPointers := by
    apply mapM_map
    intro p member
    simp [decodeKey_encodeKey (sequenced.pointers p member)]
  have files : (e.newFiles.map fun n => (n.1,encodeFile code n.2)).mapM
      (fun n => (decodeFile code n.2).map fun f => (n.1,f)) = some e.newFiles := by
    apply mapM_map
    intro n member
    simp [decodeFile_encodeFile (sequenced.smallest n member) (sequenced.largest n member)]
  have deleted := (encodeEdit code name e).deleted_eq
  simp only [decodeEdit,encodeEdit,pointers,files,Option.bind_some,Option.map_some,sorted] at deleted ⊢
  rw [deleted]

/-- The record that `LogAndApply` writes for an edit, with or without the comparator. -/
structure Image (code : K ≃ Bytes) (comparator : Bytes) (e : LevelDB.VersionEdit K) (record : Bytes) : Prop where
  sequenced : Sequenced e
  written : ∃ name : Option Bytes, (∀ n ∈ name, n = comparator) ∧ (encodeEdit code name e).Fits ∧
    record = (encodeEdit code name e).encodeTo

end Codes

section Same

/-- Builders that make the same version: the deleted files are the same set. -/
structure Same (b b' : Builder K) : Prop where
  base : b.base = b'.base
  added : b.added = b'.added
  deleted : ∀ level number, number ∈ b.deleted level ↔ number ∈ b'.deleted level

/-- What was gathered agrees up to the order of the deleted files. -/
structure Agree (r r' : Recovered K) : Prop where
  builder : Same r.builder r'.builder
  rest : r' = { r with builder := r'.builder }

variable [LinearOrder K] {b b' : Builder K} {r r' : Recovered K}

theorem Same.saveTo (same : Same b b') : b.saveTo = b'.saveTo := by
  simp only [Builder.saveTo,same.base,same.added,same.deleted]

theorem addAll_added (ns : List (Nat × LevelDB.FileMetaData K)) (added : b.added = b'.added) :
    (ns.foldl (fun b n => b.add n.1 n.2) b).added = (ns.foldl (fun b n => b.add n.1 n.2) b').added := by
  induction ns generalizing b b' with
  | nil => exact added
  | cons n rest ih =>
    apply ih
    simp only [Builder.add,added]

theorem Same.apply (same : Same b b') (e : LevelDB.VersionEdit K) : Same (b.apply e) (b'.apply (sorted e)) := by
  obtain ⟨base,added⟩ := deleteAll_base e.deletedFiles b
  obtain ⟨base',added'⟩ := deleteAll_base (sorted e).deletedFiles b'
  constructor
  · simp only [Builder.apply,addAll_base,base,base',same.base]
  · exact addAll_added e.newFiles (added.trans (same.added.trans added'.symm))
  · intro level number
    simp only [Builder.apply,mem_addAll_deleted,mem_deleteAll,mem_sorted,same.deleted]
    exact Iff.rfl

theorem Agree.step (agree : Agree r r') (e : LevelDB.VersionEdit K) : Agree (r.step e) (r'.step (sorted e)) := by
  obtain ⟨same,rest⟩ := agree
  refine ⟨same.apply e,?_⟩
  rw [rest]
  rfl

theorem Agree.run (agree : Agree r r') (edits : List (LevelDB.VersionEdit K)) :
    Agree (edits.foldl Recovered.step r) ((edits.map sorted).foldl Recovered.step r') := by
  induction edits generalizing r r' with
  | nil => exact agree
  | cons e rest ih => exact ih (agree.step e)

theorem Agree.versionSet (agree : Agree r r') : r.versionSet = r'.versionSet := by
  obtain ⟨same,rest⟩ := agree
  rw [rest]
  simp only [Recovered.versionSet,same.saveTo]

end Same

section Read
variable [LinearOrder K]

/-- The statuses with which `VersionSet::Recover` gives up on a descriptor. -/
inductive Failure where
  | corruption (msg : String)
  /-- The comparator of the edit does not match the existing comparator. -/
  | invalidArgument (comparator : Bytes)
  deriving DecidableEq

/-- The loop of `VersionSet::Recover`. A status that is no success ends it; keys that are none
have no answer. -/
def recoverLoop (code : K ≃ Bytes) (comparator : Bytes) :
    Nat → Log.Reader → Recovered K → Option (Except Failure (Recovered K))
  | 0, _, _ => none
  | fuel + 1, reader, gathered =>
    match reader.readRecord with
    | (none,reader) => some ((reader.status true).elim (.ok gathered) fun msg => .error (.corruption msg))
    | (some record,reader) =>
      match reader.status true with
      | some msg => some (.error (.corruption msg))
      | none =>
        (newEdit.decodeFrom record).bind fun (edit,status) =>
          match status with
          | some msg => some (.error (.corruption msg))
          | none =>
            if edit.comparator.any (· ≠ comparator) then some (.error (.invalidArgument (edit.comparator.getD [])))
            else (decodeEdit code edit).bind fun edit => recoverLoop code comparator fuel reader (gathered.step edit)

/-- The descriptor must have named a next file, a log and a last sequence. -/
def finish (r : Recovered K) : Except Failure (VersionSet K) :=
  match r.nextFileNumber, r.logNumber, r.lastSequence with
  | none, _, _ => .error (.corruption "no meta-nextfile entry in descriptor")
  | _, none, _ => .error (.corruption "no meta-lognumber entry in descriptor")
  | _, _, none => .error (.corruption "no last-sequence-number entry in descriptor")
  | some next, some log, some last =>
    .ok ⟨r.builder.saveTo,next + 1,next,last,log,r.prevLogNumber.getD 0,r.compactPointer⟩

/-- `VersionSet::Recover` on the bytes of the manifest. -/
def recover (code : K ≃ Bytes) (comparator : Bytes) (file : Bytes) : Option (Except Failure (VersionSet K)) :=
  (recoverLoop code comparator (file.length + 1) (Log.Reader.new file true 0) Recovered.start).map fun r => r.bind finish

theorem finish_versionSet (r : Recovered K) : (finish r).toOption = r.versionSet := by
  obtain ⟨builder,pointer,log,prev,next,last⟩ := r
  cases next <;> cases log <;> cases last <;> rfl

end Read

section Replay
variable [LinearOrder K] {code : K ≃ Bytes} {comparator : Bytes}

omit [LinearOrder K] in
theorem encodeEdit_comparator {name : Option Bytes} (named : ∀ n ∈ name, n = comparator) (e : LevelDB.VersionEdit K) :
    (encodeEdit code name e).comparator.any (· ≠ comparator) = false := by
  cases name with
  | none => rfl
  | some n => simp [encodeEdit,named n rfl]

theorem recoverLoop_silent {reader : Log.Reader} {records : List Bytes} (silent : reader.Silently records)
    {edits : List (LevelDB.VersionEdit K)} (images : List.Forall₂ (Image code comparator) edits records) (fuel : Nat)
    (enough : records.length < fuel) (r : Recovered K) :
    recoverLoop code comparator fuel reader r = some (.ok ((edits.map sorted).foldl Recovered.step r)) := by
  induction silent generalizing edits fuel r with
  | done answer quiet =>
    cases images
    cases fuel with
    | zero => omega
    | succ fuel => simp [recoverLoop,answer,Log.Reader.status,quiet]
  | next answer quiet more ih =>
    cases images with
    | cons image images =>
      cases fuel with
      | zero => omega
      | succ fuel =>
        obtain ⟨name,named,fits,rfl⟩ := image.written
        have decoded := VersionEdit.decodeFrom_encodeTo newEdit _ fits
        have later := ih images fuel (by simpa using enough)
        simp only [recoverLoop,answer,Log.Reader.status,quiet,if_true,List.head?_nil,Option.map_none,decoded,
          Option.bind_some,encodeEdit_comparator named,decodeEdit_encodeEdit image.sequenced,later]
        rfl

theorem recover_take {edits : List (LevelDB.VersionEdit K)} {records : List Bytes}
    (images : List.Forall₂ (Image code comparator) edits records) (n : Nat) :
    (recover code comparator ((Log.logFile records).take n)).map Except.toOption =
      some ((edits.take (Log.contained n (Log.Writer.open []) records).length).foldl Recovered.step Recovered.start).versionSet := by
  have whole := Log.contained_take n (Log.Writer.open []) records
  have taken := List.forall₂_take (Log.contained n (Log.Writer.open []) records).length images
  rw [← whole] at taken
  have read := recoverLoop_silent (Log.silently_contained records n) taken _ (Log.contained_fuel records n) Recovered.start
  have start : Agree (Recovered.start : Recovered K) Recovered.start := ⟨⟨rfl,rfl,fun _ _ => Iff.rfl⟩,rfl⟩
  have agree := start.run (edits.take (Log.contained n (Log.Writer.open []) records).length)
  rw [agree.versionSet,← finish_versionSet,recover,Log.logFile]
  rw [Log.logFile] at read
  rw [read]
  rfl

/-- A manifest in the machine is the bytes of its file as far as a crash and the recovery after
it can tell, whatever has been synced of it. -/
theorem manifest_images (m : ManifestFile K V) (records : List Bytes)
    (images : List.Forall₂ (Image code comparator) (m.records.map (·.edit)) records) (synced : m.synced ≤ m.records.length) :
    (∀ n, (Log.logFile (records.take m.synced)).length ≤ n →
      ∃ k, (recover code comparator ((Log.logFile records).take n)).map Except.toOption = some (m.cut k).recover) ∧
    ∀ k, ∃ n, (Log.logFile (records.take m.synced)).length ≤ n ∧
      (recover code comparator ((Log.logFile records).take n)).map Except.toOption = some (m.cut k).recover := by
  have length : m.records.length = records.length := by simpa using images.length_eq
  constructor
  · intro n enough
    refine ⟨(Log.contained n (Log.Writer.open []) records).length,?_⟩
    have kept := Log.contained_length (w := Log.Writer.open []) m.synced (length ▸ synced) enough
    rw [recover_take images,ManifestFile.recover,ManifestFile.cut,max_eq_right kept,List.map_take]
  · intro k
    refine ⟨(Log.logFile (records.take (max m.synced k))).length,Log.logFile_take_length (le_max_left _ _),?_⟩
    have ends := Log.contained_end (max m.synced k) (Log.Writer.open []) records
    rw [recover_take images,ManifestFile.recover,ManifestFile.cut,Log.logFile,ends,List.length_take,← length,List.map_take,
      ← List.length_map (f := fun r : ManifestRecord K V => r.edit),← List.take_eq_take_min]

/-- Strings of byte values, in their bytewise order. -/
def byteValues : List (Fin 256) ≃ Bytes where
  toFun key := key.map UInt8.ofFin
  invFun bytes := bytes.map UInt8.toFin
  left_inv key := by simp [Function.comp_def]
  right_inv bytes := by simp [Function.comp_def]

/-- Its deleted files are not in the order of the set. -/
def placingEdit : LevelDB.VersionEdit (List (Fin 256)) :=
  ⟨some 3,some 0,some 9,some 5,[(2,⟨[97],4,.value⟩)],[(1,8),(0,6)],[(1,⟨7,100,⟨[97],5,.value⟩,⟨[98],2,.deletion⟩⟩)]⟩

/-- It moves the file down. -/
def movingEdit : LevelDB.VersionEdit (List (Fin 256)) :=
  ⟨some 3,some 0,some 9,some 5,[],[(1,7)],[(2,⟨7,100,⟨[97],5,.value⟩,⟨[98],2,.deletion⟩⟩)]⟩

def sampleManifest : ManifestFile (List (Fin 256)) Bytes := ⟨[⟨placingEdit,[]⟩,⟨movingEdit,[]⟩],1⟩

def sampleDescriptor : List Bytes :=
  sampleManifest.records.map fun r => (encodeEdit byteValues (some [99]) r.edit).encodeTo

theorem sampleDescriptor_images :
    List.Forall₂ (Image byteValues [99]) (sampleManifest.records.map (·.edit)) sampleDescriptor := by
  refine .cons ⟨⟨by decide,by decide,by decide⟩,some [99],by simp,?_,rfl⟩ (.cons
    ⟨⟨by decide,by decide,by decide⟩,some [99],by simp,?_,rfl⟩ .nil)
  · apply encodeEdit_fits <;> decide
  · apply encodeEdit_fits <;> decide

/-- The first record ends before byte 104, and the second one with byte 105. -/
theorem sampleDescriptor_torn : (Log.logFile (sampleDescriptor.take 1)).length ≤ 104 ∧
    (Log.contained 104 (Log.Writer.open []) sampleDescriptor).length = 1 := by
  have two : (([(1,8),(0,6)] : List (Nat × Nat)).map toLex).toFinset.sort = [toLex (0,6),toLex (1,8)] := by
    have same : (([(1,8),(0,6)] : List (Nat × Nat)).map toLex).toFinset = [toLex (0,6),toLex (1,8)].toFinset := by decide
    rw [same,List.toFinset_sort _ (by decide)]
    decide
  have one : (([(1,7)] : List (Nat × Nat)).map toLex).toFinset.sort = [toLex (1,7)] := Finset.sort_singleton _ _
  have bytes : sampleDescriptor = [(encodeEdit byteValues (some [99]) placingEdit).encodeTo,
    (encodeEdit byteValues (some [99]) movingEdit).encodeTo] := rfl
  simp only [bytes,encodeEdit,VersionEdit.encodeTo,placingEdit,movingEdit,two,one]
  decide +kernel

/-- The second record has lost its last byte, and the file is where the first one put it. -/
theorem manifest_images_sample :
    ∃ k, (recover byteValues [99] ((Log.logFile sampleDescriptor).take 104)).map Except.toOption =
      some (sampleManifest.cut k).recover ∧
        ∃ vs, (sampleManifest.cut k).recover = some vs ∧ (vs.current.files 1).map (·.number) = [7] := by
  obtain ⟨first,whole⟩ := sampleDescriptor_torn
  obtain ⟨k,recovered⟩ :=
    (manifest_images sampleManifest sampleDescriptor sampleDescriptor_images (by decide)).1 104 first
  have same := recovered.symm.trans (recover_take sampleDescriptor_images 104)
  rw [whole] at same
  exact ⟨k,recovered,_,Option.some.inj same,by decide⟩

end Replay

end LevelDB.Manifest
