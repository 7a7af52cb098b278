import LevelDB.CodingReads
import LevelDB.Version
import Mathlib.Data.Finset.Sort
import Mathlib.Data.Prod.Lex

/-! Version edits as the records of a manifest (`db/version_edit`), over bytes. Internal
keys are byte strings here; of one that is read only this is checked, that it is not empty. -/
namespace LevelDB.Manifest

open Grammar

structure FileMetaData where
  number : Nat
  fileSize : Nat
  smallest : Bytes
  largest : Bytes
  deriving DecidableEq

/-- `VersionEdit`; a value and its `has_` flag are one optional value. Deleted files are a
`std::set` of pairs of a level and a number. -/
structure VersionEdit where
  comparator : Option Bytes
  logNumber : Option Nat
  prevLogNumber : Option Nat
  nextFileNumber : Option Nat
  lastSequence : Option Nat
  compactPointers : List (Nat × Bytes)
  deletedFiles : Finset (Nat ×ₗ Nat)
  newFiles : List (Nat × FileMetaData)
  deriving DecidableEq

def kComparator : Nat := 1
def kLogNumber : Nat := 2
def kNextFileNumber : Nat := 3
def kLastSequence : Nat := 4
def kCompactPointer : Nat := 5
def kDeletedFile : Nat := 6
def kNewFile : Nat := 7
def kPrevLogNumber : Nat := 9

namespace VersionEdit

/-- `Clear` forgets all that was held. -/
def clear (_ : VersionEdit) : VersionEdit := ⟨none,none,none,none,none,[],∅,[]⟩

def putNumber (tag : Nat) (value : Option Nat) : Bytes :=
  value.elim [] fun v => encodeVarint32 tag ++ encodeVarint64 v

/-- `EncodeTo`, what it appends. -/
def encodeTo (e : VersionEdit) : Bytes :=
  e.comparator.elim [] (fun name => encodeVarint32 kComparator ++ lengthPrefixedSlice name) ++
  putNumber kLogNumber e.logNumber ++ putNumber kPrevLogNumber e.prevLogNumber ++
  putNumber kNextFileNumber e.nextFileNumber ++ putNumber kLastSequence e.lastSequence ++
  (e.compactPointers.flatMap fun (level,key) =>
    encodeVarint32 kCompactPointer ++ encodeVarint32 level ++ lengthPrefixedSlice key) ++
  (e.deletedFiles.sort.flatMap fun p =>
    encodeVarint32 kDeletedFile ++ encodeVarint32 (ofLex p).1 ++ encodeVarint64 (ofLex p).2) ++
  e.newFiles.flatMap fun (level,f) =>
    encodeVarint32 kNewFile ++ encodeVarint32 level ++ encodeVarint64 f.number ++ encodeVarint64 f.fileSize ++
      lengthPrefixedSlice f.smallest ++ lengthPrefixedSlice f.largest

end VersionEdit

def getInternalKey (input : Bytes) : Option (Bytes × Bytes) :=
  (getLengthPrefixedSlice input).bind fun r => if r.1 ≠ [] then some r else none

def getLevel (input : Bytes) : Option (Nat × Bytes) :=
  (getVarint32 input).bind fun r => if r.1 < kNumLevels then some r else none

def getCompactPointer (input : Bytes) : Option ((Nat × Bytes) × Bytes) :=
  (getLevel input).bind fun (level,input) => (getInternalKey input).map fun (key,input) => ((level,key),input)

def getDeletedFile (input : Bytes) : Option ((Nat × Nat) × Bytes) :=
  (getLevel input).bind fun (level,input) => (getVarint64 input).map fun (number,input) => ((level,number),input)

def getNewFile (input : Bytes) : Option ((Nat × FileMetaData) × Bytes) :=
  (getLevel input).bind fun (level,input) => (getVarint64 input).bind fun (number,input) =>
  (getVarint64 input).bind fun (fileSize,input) => (getInternalKey input).bind fun (smallest,input) =>
  (getInternalKey input).map fun (largest,input) => ((level,⟨number,fileSize,smallest,largest⟩),input)

/-- A case of the `switch` of `DecodeFrom`: the field is read and stored, or there is a
message. -/
def store {α : Type} (read : Option (α × Bytes)) (msg : String) (set : α → VersionEdit) : Except String (VersionEdit × Bytes) :=
  match read with
  | some (a,input) => .ok (set a,input)
  | none => .error msg

def decodeField (tag : Nat) (input : Bytes) (e : VersionEdit) : Except String (VersionEdit × Bytes) :=
  if tag = kComparator then
    store (getLengthPrefixedSlice input) "comparator name" fun name => { e with comparator := some name }
  else if tag = kLogNumber then
    store (getVarint64 input) "log number" fun n => { e with logNumber := some n }
  else if tag = kPrevLogNumber then
    store (getVarint64 input) "previous log number" fun n => { e with prevLogNumber := some n }
  else if tag = kNextFileNumber then
    store (getVarint64 input) "next file number" fun n => { e with nextFileNumber := some n }
  else if tag = kLastSequence then
    store (getVarint64 input) "last sequence number" fun n => { e with lastSequence := some n }
  else if tag = kCompactPointer then
    store (getCompactPointer input) "compaction pointer" fun p => { e with compactPointers := e.compactPointers ++ [p] }
  else if tag = kDeletedFile then
    store (getDeletedFile input) "deleted file" fun p => { e with deletedFiles := insert (toLex p) e.deletedFiles }
  else if tag = kNewFile then
    store (getNewFile input) "new-file entry" fun p => { e with newFiles := e.newFiles ++ [p] }
  else .error "unknown tag"

/-- The loop of `DecodeFrom`: the edit and the message, if there is one. -/
def decodeLoop : Nat → Bytes → VersionEdit → Option (VersionEdit × Option String)
  | 0, _, _ => none
  | fuel + 1, input, e =>
    match getVarint32 input with
    | none => some (e,if input = [] then none else some "invalid tag")
    | some (tag,input) =>
      match decodeField tag input e with
      | .ok (e,input) => decodeLoop fuel input e
      | .error msg => some (e,some msg)

/-- `DecodeFrom`; the message is that of the corruption which it returns. -/
def VersionEdit.decodeFrom (e : VersionEdit) (src : Bytes) : Option (VersionEdit × Option String) :=
  decodeLoop (src.length + 1) src e.clear

section Forms

def IsLevel (bytes : Bytes) (level : Nat) : Prop := IsVarint 32 5 bytes level ∧ level < kNumLevels

def IsKey (bytes key : Bytes) : Prop := IsSlice bytes key ∧ key ≠ []

def IsCompactPointer : Bytes → Nat × Bytes → Prop :=
  Then IsLevel fun level bytes p => ∃ key, IsKey bytes key ∧ (level,key) = p

def IsDeletedFile : Bytes → Nat × Nat → Prop :=
  Then IsLevel fun level bytes p => ∃ number, IsVarint 64 10 bytes number ∧ (level,number) = p

def IsNewFile : Bytes → Nat × FileMetaData → Prop :=
  Then IsLevel fun level => Then (IsVarint 64 10) fun number => Then (IsVarint 64 10) fun fileSize =>
    Then IsKey fun smallest bytes p => ∃ largest, IsKey bytes largest ∧ (level,⟨number,fileSize,smallest,largest⟩) = p

theorem getLevel_reads : Recognizes getLevel IsLevel := getVarint32_reads.guard (· < kNumLevels)

theorem getInternalKey_reads : Recognizes getInternalKey IsKey := getLengthPrefixedSlice_reads.guard (· ≠ [])

theorem getCompactPointer_reads : Recognizes getCompactPointer IsCompactPointer :=
  getLevel_reads.bind fun level => getInternalKey_reads.map (level,·)

theorem getDeletedFile_reads : Recognizes getDeletedFile IsDeletedFile :=
  getLevel_reads.bind fun level => getVarint64_reads.map (level,·)

theorem getNewFile_reads : Recognizes getNewFile IsNewFile :=
  getLevel_reads.bind fun level => getVarint64_reads.bind fun number => getVarint64_reads.bind fun fileSize =>
    getInternalKey_reads.bind fun smallest =>
      getInternalKey_reads.map fun largest => (level,(⟨number,fileSize,smallest,largest⟩ : FileMetaData))

/-- A field of an edit, without its tag. -/
inductive Field
  | comparator (name : Bytes)
  | logNumber (n : Nat)
  | prevLogNumber (n : Nat)
  | nextFileNumber (n : Nat)
  | lastSequence (n : Nat)
  | compactPointer (p : Nat × Bytes)
  | deletedFile (p : Nat × Nat)
  | newFile (p : Nat × FileMetaData)
  deriving DecidableEq

namespace Field

def tag : Field → Nat
  | .comparator _ => kComparator
  | .logNumber _ => kLogNumber
  | .prevLogNumber _ => kPrevLogNumber
  | .nextFileNumber _ => kNextFileNumber
  | .lastSequence _ => kLastSequence
  | .compactPointer _ => kCompactPointer
  | .deletedFile _ => kDeletedFile
  | .newFile _ => kNewFile

def Body : Field → Bytes → Prop
  | .comparator name, bytes => IsSlice bytes name
  | .logNumber n, bytes | .prevLogNumber n, bytes | .nextFileNumber n, bytes | .lastSequence n, bytes =>
    IsVarint 64 10 bytes n
  | .compactPointer p, bytes => IsCompactPointer bytes p
  | .deletedFile p, bytes => IsDeletedFile bytes p
  | .newFile p, bytes => IsNewFile bytes p

/-- The edit with the field stored: a later number replaces an earlier one. -/
def apply (e : VersionEdit) : Field → VersionEdit
  | .comparator name => { e with comparator := some name }
  | .logNumber n => { e with logNumber := some n }
  | .prevLogNumber n => { e with prevLogNumber := some n }
  | .nextFileNumber n => { e with nextFileNumber := some n }
  | .lastSequence n => { e with lastSequence := some n }
  | .compactPointer p => { e with compactPointers := e.compactPointers ++ [p] }
  | .deletedFile p => { e with deletedFiles := insert (toLex p) e.deletedFiles }
  | .newFile p => { e with newFiles := e.newFiles ++ [p] }

end Field

/-- A complete tagged field. -/
def IsField (bytes : Bytes) (f : Field) : Prop :=
  ∃ tag body, bytes = tag ++ body ∧ IsVarint 32 5 tag f.tag ∧ f.Body body

theorem store_iff {α : Type} {read : Bytes → Option (α × Bytes)} {form : Bytes → α → Prop} (reads : Recognizes read form)
    (input : Bytes) (msg : String) (set : α → VersionEdit) (e' : VersionEdit) (rest : Bytes) :
    store (read input) msg set = .ok (e',rest) ↔ ∃ a body, input = body ++ rest ∧ form body a ∧ e' = set a := by
  constructor
  · intro done
    cases got : read input with
    | none =>
      simp only [store,got] at done
      cases done
    | some r =>
      simp only [store,got] at done
      cases done
      obtain ⟨body,split,formed⟩ := (reads input r.1 r.2).mp got
      exact ⟨r.1,body,split,formed,rfl⟩
  · rintro ⟨a,body,rfl,formed,rfl⟩
    simp only [store,reads.append formed rest]

theorem decodeField_iff (tag : Nat) (input : Bytes) (e e' : VersionEdit) (rest : Bytes) :
    decodeField tag input e = .ok (e',rest) ↔
      ∃ f : Field, f.tag = tag ∧ ∃ body, input = body ++ rest ∧ f.Body body ∧ e' = f.apply e := by
  constructor
  · intro done
    rw [decodeField] at done
    split at done
    · rename_i same
      obtain ⟨name,found⟩ := (store_iff getLengthPrefixedSlice_reads _ _ _ _ _).mp done
      exact ⟨.comparator name,same.symm,found⟩
    split at done
    · rename_i same
      obtain ⟨n,found⟩ := (store_iff getVarint64_reads _ _ _ _ _).mp done
      exact ⟨.logNumber n,same.symm,found⟩
    split at done
    · rename_i same
      obtain ⟨n,found⟩ := (store_iff getVarint64_reads _ _ _ _ _).mp done
      exact ⟨.prevLogNumber n,same.symm,found⟩
    split at done
    · rename_i same
      obtain ⟨n,found⟩ := (store_iff getVarint64_reads _ _ _ _ _).mp done
      exact ⟨.nextFileNumber n,same.symm,found⟩
    split at done
    · rename_i same
      obtain ⟨n,found⟩ := (store_iff getVarint64_reads _ _ _ _ _).mp done
      exact ⟨.lastSequence n,same.symm,found⟩
    split at done
    · rename_i same
      obtain ⟨p,found⟩ := (store_iff getCompactPointer_reads _ _ _ _ _).mp done
      exact ⟨.compactPointer p,same.symm,found⟩
    split at done
    · rename_i same
      obtain ⟨p,found⟩ := (store_iff getDeletedFile_reads _ _ _ _ _).mp done
      exact ⟨.deletedFile p,same.symm,found⟩
    split at done
    · rename_i same
      obtain ⟨p,found⟩ := (store_iff getNewFile_reads _ _ _ _ _).mp done
      exact ⟨.newFile p,same.symm,found⟩
    · cases done
  · rintro ⟨f,rfl,found⟩
    cases f with
    | comparator name => exact (store_iff getLengthPrefixedSlice_reads _ _ _ _ _).mpr ⟨name,found⟩
    | logNumber n => exact (store_iff getVarint64_reads _ _ _ _ _).mpr ⟨n,found⟩
    | prevLogNumber n => exact (store_iff getVarint64_reads _ _ _ _ _).mpr ⟨n,found⟩
    | nextFileNumber n => exact (store_iff getVarint64_reads _ _ _ _ _).mpr ⟨n,found⟩
    | lastSequence n => exact (store_iff getVarint64_reads _ _ _ _ _).mpr ⟨n,found⟩
    | compactPointer p => exact (store_iff getCompactPointer_reads _ _ _ _ _).mpr ⟨p,found⟩
    | deletedFile p => exact (store_iff getDeletedFile_reads _ _ _ _ _).mpr ⟨p,found⟩
    | newFile p => exact (store_iff getNewFile_reads _ _ _ _ _).mpr ⟨p,found⟩

end Forms

section Loop

theorem IsField.ne_nil {bytes : Bytes} {f : Field} (field : IsField bytes f) : bytes ≠ [] := by
  obtain ⟨tag,body,rfl,varint,-⟩ := field
  simp [varint.form.ne_nil]

/-- Every pass takes a tag, so the loop ends before the fuel does. -/
theorem decodeLoop_ends (fuel : Nat) (input : Bytes) (e : VersionEdit) (enough : input.length < fuel) :
    ∃ result, decodeLoop fuel input e = some result := by
  induction fuel generalizing input e with
  | zero => omega
  | succ fuel ih =>
    cases got : getVarint32 input with
    | none =>
      simp only [decodeLoop,got]
      exact ⟨_,rfl⟩
    | some r =>
      obtain ⟨tag,rest⟩ := r
      obtain ⟨tokens,rfl,varint⟩ := (getVarint32_reads _ _ _).mp got
      have long := List.length_pos_of_ne_nil varint.form.ne_nil
      cases field : decodeField tag rest e with
      | error msg =>
        simp only [decodeLoop,got,field]
        exact ⟨_,rfl⟩
      | ok next =>
        obtain ⟨e',rest'⟩ := next
        obtain ⟨f,-,body,rfl,-⟩ := (decodeField_iff _ _ _ _ _).mp field
        simp only [decodeLoop,got,field]
        apply ih
        simp only [List.length_append] at enough
        omega

theorem decodeLoop_iff (fuel : Nat) (input : Bytes) (e e' : VersionEdit) (enough : input.length < fuel) :
    decodeLoop fuel input e = some (e',none) ↔ ∃ fields, Many IsField input fields ∧ e' = fields.foldl Field.apply e := by
  induction fuel generalizing input e with
  | zero => omega
  | succ fuel ih =>
    constructor
    · intro done
      cases got : getVarint32 input with
      | none =>
        simp only [decodeLoop,got,Option.some.injEq,Prod.mk.injEq] at done
        obtain ⟨rfl,status⟩ := done
        by_cases empty : input = []
        · subst empty
          exact ⟨[],.nil,rfl⟩
        · rw [if_neg empty] at status
          cases status
      | some r =>
        obtain ⟨tag,rest⟩ := r
        obtain ⟨tokens,rfl,varint⟩ := (getVarint32_reads _ _ _).mp got
        have long := List.length_pos_of_ne_nil varint.form.ne_nil
        cases field : decodeField tag rest e with
        | error msg =>
          simp only [decodeLoop,got,field] at done
          cases done
        | ok next =>
          obtain ⟨next,rest'⟩ := next
          obtain ⟨f,rfl,body,rfl,formed,rfl⟩ := (decodeField_iff _ _ _ _ _).mp field
          simp only [decodeLoop,got,field] at done
          simp only [List.length_append] at enough
          obtain ⟨fields,many,rfl⟩ := (ih rest' _ (by omega)).mp done
          refine ⟨f :: fields,?_,rfl⟩
          rw [← List.append_assoc]
          exact .cons ⟨tokens,body,rfl,varint,formed⟩ many
    · rintro ⟨fields,many,rfl⟩
      cases many with
      | nil => rfl
      | @cons tokens rest f fields head tail =>
        obtain ⟨tag,body,rfl,varint,formed⟩ := head
        have long := List.length_pos_of_ne_nil varint.form.ne_nil
        have got := getVarint32_reads.append varint (body ++ rest)
        have field := (decodeField_iff f.tag (body ++ rest) e _ rest).mpr ⟨f,rfl,body,rfl,formed,rfl⟩
        rw [List.append_assoc]
        simp only [decodeLoop,got,field]
        simp only [List.length_append] at enough
        exact (ih rest _ (by omega)).mpr ⟨fields,tail,rfl⟩

/-- A string decodes when it is a list of fields; the edit holds these and nothing else. -/
theorem decodeFrom_iff (prior : VersionEdit) (src : Bytes) (e : VersionEdit) :
    prior.decodeFrom src = some (e,none) ↔ ∃ fields, Many IsField src fields ∧ e = fields.foldl Field.apply prior.clear :=
  decodeLoop_iff (src.length + 1) src prior.clear e (Nat.lt_succ_self _)

end Loop

section RoundTrip

structure FileMetaData.Fits (f : FileMetaData) : Prop where
  number : f.number < 2^64
  fileSize : f.fileSize < 2^64
  smallest : f.smallest ≠ [] ∧ f.smallest.length < 2^32
  largest : f.largest ≠ [] ∧ f.largest.length < 2^32

/-- Levels are levels, numbers have their 64 bits, and keys are not empty. -/
def Field.Fits : Field → Prop
  | .comparator name => name.length < 2^32
  | .logNumber n | .prevLogNumber n | .nextFileNumber n | .lastSequence n => n < 2^64
  | .compactPointer p => p.1 < kNumLevels ∧ p.2 ≠ [] ∧ p.2.length < 2^32
  | .deletedFile p => p.1 < kNumLevels ∧ p.2 < 2^64
  | .newFile p => p.1 < kNumLevels ∧ p.2.Fits

namespace VersionEdit

/-- The fields of an edit, in the order of `EncodeTo`. -/
def fields (e : VersionEdit) : List Field :=
  e.comparator.toList.map .comparator ++ e.logNumber.toList.map .logNumber ++ e.prevLogNumber.toList.map .prevLogNumber ++
  e.nextFileNumber.toList.map .nextFileNumber ++ e.lastSequence.toList.map .lastSequence ++
  e.compactPointers.map .compactPointer ++ e.deletedFiles.sort.map (fun p => .deletedFile (ofLex p)) ++
  e.newFiles.map .newFile

def Fits (e : VersionEdit) : Prop := ∀ f ∈ e.fields, f.Fits

end VersionEdit

def Field.encode : Field → Bytes
  | .comparator name => encodeVarint32 kComparator ++ lengthPrefixedSlice name
  | .logNumber n => encodeVarint32 kLogNumber ++ encodeVarint64 n
  | .prevLogNumber n => encodeVarint32 kPrevLogNumber ++ encodeVarint64 n
  | .nextFileNumber n => encodeVarint32 kNextFileNumber ++ encodeVarint64 n
  | .lastSequence n => encodeVarint32 kLastSequence ++ encodeVarint64 n
  | .compactPointer p => encodeVarint32 kCompactPointer ++ encodeVarint32 p.1 ++ lengthPrefixedSlice p.2
  | .deletedFile p => encodeVarint32 kDeletedFile ++ encodeVarint32 p.1 ++ encodeVarint64 p.2
  | .newFile p => encodeVarint32 kNewFile ++ encodeVarint32 p.1 ++ encodeVarint64 p.2.number ++ encodeVarint64 p.2.fileSize ++
      lengthPrefixedSlice p.2.smallest ++ lengthPrefixedSlice p.2.largest

theorem isLevel_encode {level : Nat} (small : level < kNumLevels) : IsLevel (encodeVarint32 level) level :=
  ⟨isVarint32_encode (small.trans (by decide)),small⟩

theorem isKey_encode {key : Bytes} (fits : key ≠ [] ∧ key.length < 2^32) : IsKey (lengthPrefixedSlice key) key :=
  ⟨isSlice_encode fits.2,fits.1⟩

theorem Field.isField_encode (f : Field) (fits : f.Fits) : IsField f.encode f := by
  have tag : ∀ t, t < 16 → IsVarint 32 5 (encodeVarint32 t) t := fun t small => isVarint32_encode (small.trans (by decide))
  cases f with
  | comparator name => exact ⟨_,_,rfl,tag _ (by decide),isSlice_encode fits⟩
  | logNumber n => exact ⟨_,_,rfl,tag _ (by decide),isVarint64_encode fits⟩
  | prevLogNumber n => exact ⟨_,_,rfl,tag _ (by decide),isVarint64_encode fits⟩
  | nextFileNumber n => exact ⟨_,_,rfl,tag _ (by decide),isVarint64_encode fits⟩
  | lastSequence n => exact ⟨_,_,rfl,tag _ (by decide),isVarint64_encode fits⟩
  | compactPointer p =>
    obtain ⟨level,key⟩ := fits
    refine ⟨_,_,List.append_assoc _ _ _,tag kCompactPointer (by decide),?_⟩
    exact ⟨p.1,_,_,rfl,isLevel_encode level,p.2,isKey_encode key,rfl⟩
  | deletedFile p =>
    obtain ⟨level,number⟩ := fits
    refine ⟨_,_,List.append_assoc _ _ _,tag kDeletedFile (by decide),?_⟩
    exact ⟨p.1,_,_,rfl,isLevel_encode level,p.2,isVarint64_encode number,rfl⟩
  | newFile p =>
    obtain ⟨level,file⟩ := fits
    simp only [encode,List.append_assoc]
    refine ⟨_,_,rfl,tag kNewFile (by decide),p.1,_,_,rfl,isLevel_encode level,?_⟩
    exact ⟨p.2.number,_,_,rfl,isVarint64_encode file.number,p.2.fileSize,_,_,rfl,isVarint64_encode file.fileSize,
      p.2.smallest,_,_,rfl,isKey_encode file.smallest,p.2.largest,isKey_encode file.largest,rfl⟩

theorem VersionEdit.encodeTo_eq (e : VersionEdit) : e.encodeTo = e.fields.flatMap Field.encode := by
  have optional : ∀ {α : Type} (o : Option α) (f : α → Field), (o.toList.map f).flatMap Field.encode =
      o.elim [] fun a => (f a).encode := by
    intro α o f
    cases o <;> simp
  simp only [fields,List.flatMap_append,optional,List.flatMap_map]
  rfl

theorem VersionEdit.encodeTo_many (e : VersionEdit) (fits : e.Fits) : Many IsField e.encodeTo e.fields := by
  have each : ∀ f ∈ e.fields, IsField f.encode (id f) := fun f member => f.isField_encode (fits f member)
  have many := Many.flatMap each
  rw [List.map_id] at many
  rw [encodeTo_eq]
  exact many

/-- Stored one after the other, the fields of an edit make the edit. -/
theorem VersionEdit.foldl_fields (e prior : VersionEdit) : e.fields.foldl Field.apply prior.clear = e := by
  obtain ⟨comparator,log,prev,next,last,pointers,deleted,files⟩ := e
  have pointed : ∀ (l : List (Nat × Bytes)) (e : VersionEdit), (l.map Field.compactPointer).foldl Field.apply e =
      { e with compactPointers := e.compactPointers ++ l } := by
    intro l
    induction l with
    | nil => simp
    | cons p l ih => intro e; simp [ih,Field.apply]
  have added : ∀ (l : List (Nat × FileMetaData)) (e : VersionEdit), (l.map Field.newFile).foldl Field.apply e =
      { e with newFiles := e.newFiles ++ l } := by
    intro l
    induction l with
    | nil => simp
    | cons p l ih => intro e; simp [ih,Field.apply]
  have removed : ∀ (l : List (Nat ×ₗ Nat)) (e : VersionEdit),
      (l.map fun p => Field.deletedFile (ofLex p)).foldl Field.apply e =
        { e with deletedFiles := e.deletedFiles ∪ l.toFinset } := by
    intro l
    induction l with
    | nil => simp
    | cons p l ih => intro e; simp [ih,Field.apply,Finset.insert_union]
  simp only [fields,List.foldl_append,pointed,added,removed,Finset.sort_toFinset]
  cases comparator <;> cases log <;> cases prev <;> cases next <;> cases last <;>
    simp [clear,Field.apply]

theorem Field.Body.fits {f : Field} {body : Bytes} (formed : f.Body body) : f.Fits := by
  have key : ∀ {bytes key : Bytes}, IsKey bytes key → key ≠ [] ∧ key.length < 2^32 := fun held => ⟨held.2,held.1.length_lt⟩
  cases f with
  | comparator name => exact IsSlice.length_lt formed
  | logNumber n => exact IsVarint.lt formed
  | prevLogNumber n => exact IsVarint.lt formed
  | nextFileNumber n => exact IsVarint.lt formed
  | lastSequence n => exact IsVarint.lt formed
  | compactPointer p =>
    obtain ⟨level,left,right,-,leveled,held,keyed,rfl⟩ := formed
    exact ⟨leveled.2,key keyed⟩
  | deletedFile p =>
    obtain ⟨level,left,right,-,leveled,number,numbered,rfl⟩ := formed
    exact ⟨leveled.2,numbered.lt⟩
  | newFile p =>
    obtain ⟨level,left,right,-,leveled,number,_,_,-,numbered,size,_,_,-,sized,small,_,_,-,smallest,large,largest,rfl⟩ := formed
    exact ⟨leveled.2,numbered.lt,sized.lt,key smallest,key largest⟩

theorem Field.mem_fields_apply {e : VersionEdit} {f g : Field} (member : g ∈ (f.apply e).fields) : g = f ∨ g ∈ e.fields := by
  cases f <;> simp only [apply,VersionEdit.fields,List.mem_append,List.mem_map,Finset.mem_sort,Finset.mem_insert,
    List.mem_singleton,Option.mem_toList] at member ⊢
  all_goals grind [ofLex_toLex]

theorem VersionEdit.fits_foldl (fields : List Field) (e : VersionEdit) (fits : e.Fits) (each : ∀ f ∈ fields, f.Fits) :
    (fields.foldl Field.apply e).Fits := by
  induction fields generalizing e with
  | nil => exact fits
  | cons f fields ih =>
    apply ih
    · intro g member
      rcases Field.mem_fields_apply member with rfl | old
      · exact each g List.mem_cons_self
      · exact fits g old
    · exact fun g member => each g (List.mem_cons_of_mem f member)

theorem VersionEdit.decodeFrom_encodeTo (prior e : VersionEdit) (fits : e.Fits) :
    prior.decodeFrom e.encodeTo = some (e,none) :=
  (decodeFrom_iff prior e.encodeTo e).mpr ⟨e.fields,e.encodeTo_many fits,(e.foldl_fields prior).symm⟩

theorem VersionEdit.clear_fits (e : VersionEdit) : e.clear.Fits := by
  intro f member
  simp [fields,clear] at member

theorem VersionEdit.fits_of_decodeFrom {prior e : VersionEdit} {src : Bytes} (ok : prior.decodeFrom src = some (e,none)) :
    e.Fits := by
  obtain ⟨fields,many,rfl⟩ := (decodeFrom_iff prior src e).mp ok
  apply fits_foldl fields _ prior.clear_fits
  clear ok
  induction many with
  | nil => simp
  | cons head tail ih =>
    obtain ⟨tag,body,-,-,formed⟩ := head
    intro f member
    rcases List.mem_cons.mp member with rfl | later
    · exact formed.fits
    · exact ih f later

/-- An edit comes back from its encoding, whatever is decoded into; a string decodes if and
only if it is a list of complete fields, and what it decodes to comes back too. -/
theorem edit_codec (prior : VersionEdit) :
    (∀ e : VersionEdit, e.Fits → prior.decodeFrom e.encodeTo = some (e,none)) ∧
    ∀ src, (∃ result, prior.decodeFrom src = some result) ∧
      ((∃ e, prior.decodeFrom src = some (e,none)) ↔ ∃ fields, Many IsField src fields) ∧
      ∀ e, prior.decodeFrom src = some (e,none) → ∀ prior' : VersionEdit, prior'.decodeFrom e.encodeTo = some (e,none) := by
  refine ⟨prior.decodeFrom_encodeTo,?_⟩
  intro src
  refine ⟨decodeLoop_ends _ _ _ (Nat.lt_succ_self _),?_,?_⟩
  · constructor
    · rintro ⟨e,ok⟩
      obtain ⟨fields,many,-⟩ := (decodeFrom_iff prior src e).mp ok
      exact ⟨fields,many⟩
    · rintro ⟨fields,many⟩
      exact ⟨_,(decodeFrom_iff prior src _).mpr ⟨fields,many,rfl⟩⟩
  · intro e ok prior'
    exact prior'.decodeFrom_encodeTo e (VersionEdit.fits_of_decodeFrom ok)

/-- An edit with a field of every kind. -/
def sampleEdit : VersionEdit :=
  ⟨some [0x66,0x6f,0x6f],some 5,some 0,some 9,some (2^56),[(6,[0x78,1,0,0,0,0,0,0,0])],{toLex (4,700)},
    [(3,⟨300,400,[0x61,1,1,0,0,0,0,0,0],[0x7a,0,2,0,0,0,0,0,0]⟩)]⟩

theorem edit_codec_sample : sampleEdit.decodeFrom sampleEdit.encodeTo = some (sampleEdit,none) := by
  apply (edit_codec sampleEdit).1
  intro f member
  simp only [VersionEdit.fields,sampleEdit,Option.toList_some,List.map_cons,List.map_nil,Finset.sort_singleton,
    List.cons_append,List.nil_append,List.mem_cons,List.not_mem_nil,or_false] at member
  rcases member with rfl | rfl | rfl | rfl | rfl | rfl | rfl | rfl
  all_goals simp [Field.Fits,kNumLevels]
  constructor <;> simp

end RoundTrip

section Keys

/-- The length of the user key that `ExtractUserKey` takes out. -/
def userKeySize (key : Bytes) : Int := (key.length : Int) - 8

/-- The internal keys of an edit: the comparator gets to see all of them. -/
def VersionEdit.internalKeys (e : VersionEdit) : List Bytes :=
  e.compactPointers.map (·.2) ++ e.newFiles.flatMap fun n => [n.2.smallest,n.2.largest]

def Field.internalKeys : Field → List Bytes
  | .compactPointer p => [p.2]
  | .newFile p => [p.2.smallest,p.2.largest]
  | _ => []

theorem Field.mem_internalKeys_apply (e : VersionEdit) (f : Field) (key : Bytes) :
    key ∈ (f.apply e).internalKeys ↔ key ∈ e.internalKeys ∨ key ∈ f.internalKeys := by
  cases f <;> simp [apply,VersionEdit.internalKeys,internalKeys,or_assoc,or_comm,or_left_comm]

theorem mem_internalKeys_foldl (fields : List Field) (e : VersionEdit) (key : Bytes) :
    key ∈ (fields.foldl Field.apply e).internalKeys ↔ key ∈ e.internalKeys ∨ ∃ f ∈ fields, key ∈ f.internalKeys := by
  induction fields generalizing e with
  | nil => simp
  | cons f fields ih =>
    rw [List.foldl_cons,ih,Field.mem_internalKeys_apply,or_assoc]
    simp

theorem userKeySize_nonneg (key : Bytes) : 0 ≤ userKeySize key ↔ 8 ≤ key.length := by
  rw [userKeySize]
  omega

/-- The keys of a decoded edit are usable just when no field of the string is a pointer or a
file with a key of less than eight bytes. -/
theorem decoded_keys_usable_iff (prior e : VersionEdit) (src : Bytes) (ok : prior.decodeFrom src = some (e,none)) :
    (∀ key ∈ e.internalKeys, 0 ≤ userKeySize key) ↔
      ∀ fields, Many IsField src fields → ∀ f ∈ fields, ∀ key ∈ f.internalKeys, 8 ≤ key.length := by
  have whole : ∀ fields, Many IsField src fields → ∀ key, key ∈ e.internalKeys ↔ ∃ f ∈ fields, key ∈ f.internalKeys := by
    intro fields many key
    have again := (decodeFrom_iff prior src _).mpr ⟨fields,many,rfl⟩
    rw [ok] at again
    cases again
    rw [mem_internalKeys_foldl]
    simp [VersionEdit.internalKeys,VersionEdit.clear]
  simp only [userKeySize_nonneg]
  constructor
  · intro usable fields many f member key held
    exact usable key ((whole fields many key).mpr ⟨f,member,held⟩)
  · intro long key held
    obtain ⟨fields,many,-⟩ := (decodeFrom_iff prior src e).mp ok
    obtain ⟨f,member,inside⟩ := (whole fields many key).mp held
    exact long fields many f member key inside

/-- A compaction pointer for level 0 whose key is the single byte `a`. -/
def shortKeyRecord : Bytes := [5,0,1,0x61]

theorem decoded_keys_usable_iff_short :
    (∀ key ∈ ({ sampleEdit.clear with compactPointers := [(0,[0x61])] } : VersionEdit).internalKeys, 0 ≤ userKeySize key) ↔
      ∀ fields, Many IsField shortKeyRecord fields → ∀ f ∈ fields, ∀ key ∈ f.internalKeys, 8 ≤ key.length :=
  decoded_keys_usable_iff sampleEdit _ shortKeyRecord rfl

theorem decoded_keys_not_usable : ¬∀ (prior e : VersionEdit) (src : Bytes), prior.decodeFrom src = some (e,none) →
    ∀ key ∈ e.internalKeys, 0 ≤ userKeySize key := by
  intro usable
  have ok : sampleEdit.decodeFrom shortKeyRecord = some ({ sampleEdit.clear with compactPointers := [(0,[0x61])] },none) := rfl
  have long := usable _ _ _ ok [0x61] (by decide)
  exact absurd long (by decide)

end Keys

end LevelDB.Manifest
