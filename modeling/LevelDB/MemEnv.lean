import Mathlib.Data.List.Basic
import Mathlib.Logic.Function.Basic

/-! `InMemoryEnv`: files in blocks of 8 KiB, counted references, and a map from names to
files. Handles are numbered in the order in which they are opened. -/
namespace LevelDB.MemEnv

variable {P B : Type}

def kBlockSize : Nat := 8 * 1024

structure FileState (B : Type) where
  refs : Nat
  blocks : List (List B)
  size : Nat

def FileState.truncate (f : FileState B) : FileState B := { f with blocks := [], size := 0 }

/-- The loop of `FileState::Read`. Every pass copies a byte at least. -/
def copyOut (blocks : List (List B)) : Nat → Nat → Nat → Nat → List B
  | 0, _, _, _ => []
  | fuel + 1, block, blockOffset, bytesToCopy =>
    if bytesToCopy = 0 then []
    else
      let avail := min (kBlockSize - blockOffset) bytesToCopy
      ((blocks.getD block []).drop blockOffset).take avail ++ copyOut blocks fuel (block + 1) 0 (bytesToCopy - avail)

def FileState.read (f : FileState B) (offset n : Nat) : Except String (List B) :=
  if f.size < offset then .error "Offset greater than file size."
  else
    let n := min n (f.size - offset)
    if n = 0 then .ok [] else .ok (copyOut f.blocks n (offset / kBlockSize) (offset % kBlockSize) n)

/-- `memcpy` into a block. -/
def overwrite (block : List B) (offset : Nat) (src : List B) : List B :=
  block.take offset ++ src ++ block.drop (offset + src.length)

/-- The loop of `FileState::Append`. The bytes of a new block are not initialized. -/
def FileState.copyIn [Inhabited B] : Nat → FileState B → List B → FileState B
  | 0, f, _ => f
  | fuel + 1, f, src =>
    if src.length = 0 then f
    else
      let offset := f.size % kBlockSize
      let blocks := if offset ≠ 0 then f.blocks else f.blocks ++ [List.replicate kBlockSize default]
      let avail := min (if offset ≠ 0 then kBlockSize - offset else kBlockSize) src.length
      FileState.copyIn fuel { f with
        blocks := blocks.dropLast ++ [overwrite (blocks.getLastD []) offset (src.take avail)]
        size := f.size + avail } (src.drop avail)

def FileState.append [Inhabited B] (f : FileState B) (data : List B) : FileState B := f.copyIn data.length data

/-- `SequentialFileImpl`, `RandomAccessFileImpl` and `WritableFileImpl`. -/
inductive Handle where
  | sequential (file pos : Nat)
  | random (file : Nat)
  | writable (file : Nat)
  deriving DecidableEq, Repr

def Handle.file : Handle → Nat
  | .sequential file _ => file
  | .random file => file
  | .writable file => file

inductive Result (P B : Type) where
  | ok
  | opened (handle : Nat)
  | data (bytes : List B)
  | exists (found : Bool)
  | size (bytes : Nat)
  | ioError (fname : Option P) (msg : String)
  /-- The caller does not have this handle. -/
  | noHandle
  /-- A null pointer or a deleted object is used. -/
  | crash
  deriving DecidableEq, Repr

inductive Op (P B : Type) where
  | newSequentialFile (fname : P)
  | newRandomAccessFile (fname : P)
  | newWritableFile (fname : P)
  | newAppendableFile (fname : P)
  | append (handle : Nat) (data : List B)
  | read (handle n : Nat)
  | skip (handle n : Nat)
  | readAt (handle offset n : Nat)
  | close (handle : Nat)
  | fileExists (fname : P)
  | getFileSize (fname : P)
  | removeFile (fname : P)
  | renameFile (src target : P)

/-- `file_map_` may hold null pointers. -/
structure Env (P B : Type) where
  heap : Nat → Option (FileState B)
  next : Nat
  fileMap : P → Option (Option Nat)
  handles : List (Option Handle)

def Env.empty : Env P B := ⟨fun _ => none,0,fun _ => none,[]⟩

section Env
variable [DecidableEq P]

def Env.store (e : Env P B) (file : Nat) (f : Option (FileState B)) : Env P B :=
  { e with heap := Function.update e.heap file f }

def Env.setName (e : Env P B) (fname : P) (file : Option (Option Nat)) : Env P B :=
  { e with fileMap := Function.update e.fileMap fname file }

def Env.setHandle (e : Env P B) (handle : Nat) (h : Option Handle) : Env P B :=
  { e with handles := e.handles.set handle h }

/-- `*file`. -/
def Env.deref (e : Env P B) (file : Option Nat) : Option (Nat × FileState B) :=
  file.bind fun a => (e.heap a).map (a,·)

/-- A new object for a handle takes a reference on its file. -/
def Env.openFile (e : Env P B) (file : Option Nat) (handle : Nat → Handle) : Result P B × Env P B :=
  match e.deref file with
  | none => (.crash,e)
  | some (a,f) => (.opened e.handles.length,{ e.store a (some { f with refs := f.refs + 1 }) with
      handles := e.handles ++ [some (handle a)] })

/-- `new FileState` with one reference. -/
def Env.newFile (e : Env P B) : Env P B := { e.store e.next (some ⟨1,[],0⟩) with next := e.next + 1 }

def Env.unref (e : Env P B) (file : Option Nat) : Option (Env P B) :=
  (e.deref file).map fun (a,f) => e.store a (if f.refs - 1 = 0 then none else some { f with refs := f.refs - 1 })

def Env.openExisting (e : Env P B) (fname : P) (handle : Nat → Handle) : Result P B × Env P B :=
  match e.fileMap fname with
  | none => (.ioError (some fname) "File not found",e)
  | some file => e.openFile file handle

def Env.newWritableFile (e : Env P B) (fname : P) : Result P B × Env P B :=
  match e.fileMap fname with
  | none => (e.newFile.setName fname (some (some e.next))).openFile (some e.next) .writable
  | some file => match e.deref file with
    | none => (.crash,e)
    | some (a,f) => (e.store a (some f.truncate)).openFile file .writable

/-- `file_map_[fname]` makes an entry if there is none, and the new file is not put there. -/
def Env.newAppendableFile (e : Env P B) (fname : P) : Result P B × Env P B :=
  match e.fileMap fname with
  | some (some a) => e.openFile (some a) .writable
  | _ => (e.newFile.setName fname (some none)).openFile (some e.next) .writable

def Env.removeFileInternal (e : Env P B) (fname : P) : Option (Env P B) :=
  match e.fileMap fname with
  | none => some e
  | some file => (e.unref file).map fun e => e.setName fname none

def Env.removeFile (e : Env P B) (fname : P) : Result P B × Env P B :=
  match e.fileMap fname with
  | none => (.ioError (some fname) "File not found",e)
  | some _ => match e.removeFileInternal fname with
    | none => (.crash,e)
    | some e => (.ok,e)

def Env.renameFile (e : Env P B) (src target : P) : Result P B × Env P B :=
  match e.fileMap src with
  | none => (.ioError (some src) "File not found",e)
  | some _ => match e.removeFileInternal target with
    | none => (.crash,e)
    -- `file_map_[src]` is null if there is no entry any more
    | some e => (.ok,(e.setName target (some ((e.fileMap src).getD none))).setName src none)

def Env.getFileSize (e : Env P B) (fname : P) : Result P B :=
  match e.fileMap fname with
  | none => .ioError (some fname) "File not found"
  | some file => match e.deref file with
    | none => .crash
    | some (_,f) => .size f.size

/-- A call of a handle that is open. -/
def Env.use (e : Env P B) (handle : Nat) (call : Handle → FileState B → Result P B × Env P B) : Result P B × Env P B :=
  match e.handles[handle]? with
  | some (some h) => match e.heap h.file with
    | none => (.crash,e)
    | some f => call h f
  | _ => (.noHandle,e)

def Env.append [Inhabited B] (e : Env P B) (handle : Nat) (data : List B) : Result P B × Env P B :=
  e.use handle fun
    | .writable a, f => (.ok,e.store a (some (f.append data)))
    | _, _ => (.noHandle,e)

def Env.read (e : Env P B) (handle n : Nat) : Result P B × Env P B :=
  e.use handle fun
    | .sequential a pos, f => match f.read pos n with
      | .ok bytes => (.data bytes,e.setHandle handle (some (.sequential a (pos + bytes.length))))
      | .error msg => (.ioError none msg,e)
    | _, _ => (.noHandle,e)

def Env.skip (e : Env P B) (handle n : Nat) : Result P B × Env P B :=
  e.use handle fun
    | .sequential a pos, f =>
      if f.size < pos then (.ioError none "pos_ > file_->Size()",e)
      else (.ok,e.setHandle handle (some (.sequential a (pos + min n (f.size - pos)))))
    | _, _ => (.noHandle,e)

def Env.readAt (e : Env P B) (handle offset n : Nat) : Result P B × Env P B :=
  e.use handle fun
    | .random _, f => match f.read offset n with
      | .ok bytes => (.data bytes,e)
      | .error msg => (.ioError none msg,e)
    | _, _ => (.noHandle,e)

/-- The destructors of the three classes. -/
def Env.close (e : Env P B) (handle : Nat) : Result P B × Env P B :=
  match e.handles[handle]? with
  | some (some h) => match e.unref (some h.file) with
    | none => (.crash,e)
    | some e => (.ok,e.setHandle handle none)
  | _ => (.noHandle,e)

def Env.step [Inhabited B] (e : Env P B) : Op P B → Result P B × Env P B
  | .newSequentialFile fname => e.openExisting fname fun a => .sequential a 0
  | .newRandomAccessFile fname => e.openExisting fname .random
  | .newWritableFile fname => e.newWritableFile fname
  | .newAppendableFile fname => e.newAppendableFile fname
  | .append handle data => e.append handle data
  | .read handle n => e.read handle n
  | .skip handle n => e.skip handle n
  | .readAt handle offset n => e.readAt handle offset n
  | .close handle => e.close handle
  | .fileExists fname => (.exists (e.fileMap fname).isSome,e)
  | .getFileSize fname => (e.getFileSize fname,e)
  | .removeFile fname => e.removeFile fname
  | .renameFile src target => e.renameFile src target

def Env.run [Inhabited B] (e : Env P B) : List (Op P B) → List (Result P B) × Env P B
  | [] => ([],e)
  | op :: rest =>
    let (result,next) := e.step op
    let (results,last) := next.run rest
    (result :: results,last)

end Env

end LevelDB.MemEnv
