import LevelDB.Crc32c
import Mathlib.Data.List.Infix

/-! `PosixWritableFile` of `util/env_posix`: a buffer in front of a descriptor. The kernel may
take any part of what it is given and may be interrupted; a call that still waits for it has
not returned. -/
namespace LevelDB.Posix

def kWritableFileBufferSize : Nat := 65536

/-- The answers of `write`: how many bytes it took, `EINTR`, or another `errno`. -/
inductive WriteResult where
  | wrote (count : Nat)
  | interrupted
  | failed (errorNumber : Nat)
  deriving DecidableEq

/-- What `PosixError` is given as its context. -/
inductive Context where
  | filename
  | dirname
  deriving DecidableEq

/-- The message of an error is `strerror` of its number. -/
inductive Status where
  | ok
  | notFound (context : Context) (errorNumber : Nat)
  | ioError (context : Context) (errorNumber : Nat)
  deriving DecidableEq

def ENOENT : Nat := 2

def posixError (context : Context) (errorNumber : Nat) : Status :=
  if errorNumber = ENOENT then .notFound context errorNumber else .ioError context errorNumber

/-- Why a call has no result: it went past the buffer, or it waits for the kernel. -/
inductive Stop where
  | wildAccess
  | waiting
  deriving DecidableEq

structure PosixWritableFile where
  buf : Bytes
  pos : Nat
  fd : Int
  isManifest : Bool

/-- The file, what was handed to its descriptor, and what `write` is going to answer. -/
structure World where
  file : PosixWritableFile
  written : Bytes
  answers : List WriteResult

/-- The loop of `WriteUnbuffered`. -/
def writeLoop : List WriteResult → Bytes → Bytes → Except Stop (Status × Bytes × List WriteResult)
  | [], data, written => if data = [] then .ok (.ok,written,[]) else .error .waiting
  | answer :: answers, data, written =>
    if data = [] then .ok (.ok,written,answer :: answers)
    else match answer with
      | .interrupted => writeLoop answers data written
      | .failed errorNumber => .ok (posixError .filename errorNumber,written,answers)
      | .wrote count => writeLoop answers (data.drop count) (written ++ data.take count)

def memcpy (buf : Bytes) (offset : Nat) (data : Bytes) : Except Stop Bytes :=
  if offset + data.length ≤ buf.length then .ok (buf.take offset ++ data ++ buf.drop (offset + data.length))
  else .error .wildAccess

def PosixWritableFile.buffered (f : PosixWritableFile) : Except Stop Bytes :=
  if f.pos ≤ f.buf.length then .ok (f.buf.take f.pos) else .error .wildAccess

/-- `SyncFd`; the answer to `close` is read in the same way. -/
def syncFd (failed : Option Nat) (context : Context) : Status := failed.elim .ok (posixError context)

namespace World

def writeUnbuffered (w : World) (data : Bytes) : Except Stop (Status × World) := do
  let (status,written,answers) ← writeLoop w.answers data w.written
  return (status,{ w with written := written, answers := answers })

def flushBuffer (w : World) : Except Stop (Status × World) := do
  let data ← w.file.buffered
  let (status,w) ← w.writeUnbuffered data
  return (status,{ w with file := { w.file with pos := 0 } })

/-- The sizes are of type `size_t`. -/
def append (w : World) (data : Bytes) : Except Stop (Status × World) := do
  let copySize := min data.length ((kWritableFileBufferSize + (2^64 - w.file.pos)) % 2^64)
  let buf ← memcpy w.file.buf w.file.pos (data.take copySize)
  let w := { w with file := { w.file with buf := buf, pos := w.file.pos + copySize } }
  let rest := data.drop copySize
  if rest.length = 0 then return (.ok,w)
  let (status,w) ← w.flushBuffer
  if status ≠ .ok then return (status,w)
  if rest.length < kWritableFileBufferSize then
    let buf ← memcpy w.file.buf 0 rest
    return (.ok,{ w with file := { w.file with buf := buf, pos := rest.length } })
  w.writeUnbuffered rest

def close (w : World) (closed : Option Nat) : Except Stop (Status × World) := do
  let (status,w) ← w.flushBuffer
  let status := if status = .ok then syncFd closed .filename else status
  return (status,{ w with file := { w.file with fd := -1 } })

def flush (w : World) : Except Stop (Status × World) := w.flushBuffer

/-- Whether the directory can be opened and synced is asked for a manifest only. -/
def syncDirIfManifest (w : World) (opened synced : Option Nat) : Status :=
  if w.file.isManifest then opened.elim (syncFd synced .dirname) (posixError .dirname) else .ok

def sync (w : World) (opened dirSynced synced : Option Nat) : Except Stop (Status × World) := do
  let status := w.syncDirIfManifest opened dirSynced
  if status ≠ .ok then return (status,w)
  let (status,w) ← w.flushBuffer
  if status ≠ .ok then return (status,w)
  return (syncFd synced .filename,w)

end World

/-- A call with the answers of the kernel to the others of its system calls: the `errno` of
one that fails. -/
inductive Call where
  | append (data : Bytes)
  | flush
  | sync (opened dirSynced synced : Option Nat)
  | close (closed : Option Nat)

def World.call (w : World) : Call → Except Stop (Status × World)
  | .append data => w.append data
  | .flush => w.flush
  | .sync opened dirSynced synced => w.sync opened dirSynced synced
  | .close closed => w.close closed

def World.run (w : World) : List Call → Except Stop World
  | [] => .ok w
  | call :: calls => do
    let (_,w) ← w.call call
    w.run calls

def Call.data : Call → Bytes
  | .append data => data
  | .flush => []
  | .sync _ _ _ => []
  | .close _ => []

/-- A call returns in the way that is said; it waits for the kernel only if there is not
enough. -/
inductive Gives {α : Type} (enough : Prop) (Q : α → Prop) : Except Stop α → Prop
  | waiting (short : ¬enough) : Gives enough Q (.error .waiting)
  | returned {a : α} (holds : Q a) : Gives enough Q (.ok a)

section Gives
variable {α β : Type} {enough : Prop} {Q : α → Prop} {R : β → Prop} {r : Except Stop α}

theorem Gives.bind {next : α → Except Stop β} (gives : Gives enough Q r)
    (after : ∀ a, Q a → Gives enough R (next a)) : Gives enough R (r >>= next) := by
  cases gives with
  | waiting short => exact .waiting short
  | returned holds => exact after _ holds

theorem Gives.imp {enough' : Prop} {Q' : α → Prop} (gives : Gives enough Q r) (more : enough' → enough)
    (weaker : ∀ a, Q a → Q' a) : Gives enough' Q' r := by
  cases gives with
  | waiting short => exact .waiting (mt more short)
  | returned holds => exact .returned (weaker _ holds)

theorem Gives.ne_wild (gives : Gives enough Q r) : r ≠ .error .wildAccess := by
  cases gives <;> simp

theorem Gives.holds {a : α} (gives : Gives enough Q (.ok a)) : Q a := by
  cases gives with
  | returned holds => exact holds

theorem Gives.returns (gives : Gives enough Q r) (given : enough) : ∃ a, r = .ok a ∧ Q a := by
  cases gives with
  | waiting short => exact absurd given short
  | returned holds => exact ⟨_,rfl,holds⟩

end Gives

/-- The kernel took something. -/
def WriteResult.took : WriteResult → Bool
  | .wrote count => decide (0 < count)
  | .interrupted => false
  | .failed _ => false

def Unfailing (answers : List WriteResult) : Prop := ∀ errorNumber, .failed errorNumber ∉ answers

/-- How often the kernel is going to take something. -/
def World.supply (w : World) : Nat := w.answers.countP WriteResult.took

/-- The bytes appended so far: what the descriptor was given, and then the buffer. -/
structure World.Holds (w : World) (stream : Bytes) : Prop where
  size : w.file.buf.length = kWritableFileBufferSize
  pos_le : w.file.pos ≤ kWritableFileBufferSize
  bytes : w.written ++ w.file.buf.take w.file.pos = stream
  unfailing : Unfailing w.answers

/-- What a call leaves that adds `data`; each byte that went to the descriptor has cost one
write at most. -/
structure World.Leaves (w : World) (stream data : Bytes) (r : Status × World) : Prop where
  holds : r.2.Holds (stream ++ data)
  isManifest : r.2.file.isManifest = w.file.isManifest
  supply : w.supply + r.2.file.pos ≤ r.2.supply + w.file.pos + data.length

section Calls
variable {w : World} {stream : Bytes}

/-- However the kernel cuts them and how often it interrupts, the bytes arrive in order. -/
theorem writeLoop_gives (answers : List WriteResult) (data written : Bytes) (unfailing : Unfailing answers) :
    Gives (data.length ≤ answers.countP WriteResult.took)
      (fun r => r.1 = .ok ∧ r.2.1 = written ++ data ∧ Unfailing r.2.2 ∧
        answers.countP WriteResult.took ≤ r.2.2.countP WriteResult.took + data.length)
      (writeLoop answers data written) := by
  induction answers generalizing data written with
  | nil =>
    rw [writeLoop]
    split
    · rename_i done
      exact .returned ⟨rfl,by simp [done],unfailing,Nat.le_add_right _ _⟩
    · rename_i some
      have := List.length_pos_iff.mpr some
      exact .waiting (Nat.not_le_of_lt this)
  | cons answer answers ih =>
    have rest : Unfailing answers := fun errorNumber member => unfailing errorNumber (List.mem_cons_of_mem _ member)
    by_cases done : data = []
    · have stays : writeLoop (answer :: answers) data written = .ok (.ok,written,answer :: answers) := by
        cases answer <;> rw [writeLoop,if_pos done]
      rw [stays]
      exact .returned ⟨rfl,by simp [done],unfailing,Nat.le_add_right _ _⟩
    · have some := List.length_pos_iff.mpr done
      cases answer with
      | failed errorNumber => exact absurd List.mem_cons_self (unfailing errorNumber)
      | interrupted =>
        rw [writeLoop,if_neg done,List.countP_cons_of_neg (by simp [WriteResult.took])]
        exact ih data written rest
      | wrote count =>
        rw [writeLoop,if_neg done]
        have count_le : (WriteResult.wrote count :: answers).countP WriteResult.took ≤
            answers.countP WriteResult.took + min count 1 := by
          rw [List.countP_cons]
          by_cases positive : 0 < count <;> simp [WriteResult.took,positive]
          omega
        refine (ih (data.drop count) (written ++ data.take count) rest).imp ?_ fun r given => ?_
        · rw [List.length_drop]
          omega
        · obtain ⟨ok,same,unfailing,left⟩ := given
          rw [List.length_drop] at left
          refine ⟨ok,?_,unfailing,by omega⟩
          rw [same,List.append_assoc,List.take_append_drop]

theorem World.writeUnbuffered_gives (w : World) (data : Bytes) (unfailing : Unfailing w.answers) :
    Gives (data.length ≤ w.supply) (fun r => r.1 = .ok ∧ r.2.file = w.file ∧ r.2.written = w.written ++ data ∧
      Unfailing r.2.answers ∧ w.supply ≤ r.2.supply + data.length) (w.writeUnbuffered data) := by
  refine (writeLoop_gives w.answers data w.written unfailing).bind fun r given => ?_
  exact .returned ⟨given.1,rfl,given.2⟩

theorem memcpy_gives {enough : Prop} {buf data : Bytes} {offset : Nat} (inside : offset + data.length ≤ buf.length) :
    Gives enough (fun after => after.length = buf.length ∧
      after.take (offset + data.length) = buf.take offset ++ data) (memcpy buf offset data) := by
  rw [memcpy,if_pos inside]
  refine .returned ⟨?_,?_⟩
  · simp only [List.length_append,List.length_take,List.length_drop]
    omega
  · apply List.take_left'
    simp only [List.length_append,List.length_take]
    omega

/-- The buffer is empty after a flush, whatever was in it. -/
theorem World.Holds.flushBuffer (holds : w.Holds stream) :
    Gives (w.file.pos ≤ w.supply) (fun r => r.1 = .ok ∧ w.Leaves stream [] r ∧ r.2.file.pos = 0) w.flushBuffer := by
  have fits : w.file.pos ≤ w.file.buf.length := by
    rw [holds.size]
    exact holds.pos_le
  have length : (w.file.buf.take w.file.pos).length = w.file.pos := List.length_take_of_le fits
  have gives := w.writeUnbuffered_gives (w.file.buf.take w.file.pos) holds.unfailing
  rw [length] at gives
  rw [World.flushBuffer,PosixWritableFile.buffered,if_pos fits]
  refine gives.bind fun r given => ?_
  obtain ⟨ok,file,written,unfailing,supply⟩ := given
  refine .returned ⟨ok,⟨⟨?_,Nat.zero_le _,?_,unfailing⟩,?_,supply⟩,rfl⟩
  · rw [file]
    exact holds.size
  · rw [List.take_zero,List.append_nil,List.append_nil,written]
    exact holds.bytes
  · rw [file]

theorem room_eq {pos : Nat} (le : pos ≤ kWritableFileBufferSize) :
    (kWritableFileBufferSize + (2^64 - pos)) % 2^64 = kWritableFileBufferSize - pos := by
  simp only [kWritableFileBufferSize] at le ⊢
  omega

/-- The part of the data that the buffer takes is behind what it held. -/
theorem World.Holds.copied (holds : w.Holds stream) {part buf : Bytes}
    (fits : w.file.pos + part.length ≤ kWritableFileBufferSize)
    (after : buf.length = w.file.buf.length ∧
      buf.take (w.file.pos + part.length) = w.file.buf.take w.file.pos ++ part) :
    World.Holds { w with file := { w.file with buf := buf, pos := w.file.pos + part.length } } (stream ++ part) :=
  ⟨after.1.trans holds.size,fits,by rw [after.2,← List.append_assoc,holds.bytes],holds.unfailing⟩

theorem World.Holds.append (holds : w.Holds stream) (data : Bytes) :
    Gives (w.file.pos + data.length ≤ w.supply) (fun r => r.1 = .ok ∧ w.Leaves stream data r) (w.append data) := by
  have le := holds.pos_le
  set copySize := min data.length (kWritableFileBufferSize - w.file.pos) with copied
  have length : (data.take copySize).length = copySize := by
    rw [List.length_take]
    omega
  have rest : (data.drop copySize).length = data.length - copySize := List.length_drop
  have fits : w.file.pos + (data.take copySize).length ≤ kWritableFileBufferSize := by omega
  have whole : stream ++ data = stream ++ data.take copySize ++ data.drop copySize := by
    rw [List.append_assoc,List.take_append_drop]
  rw [World.append,room_eq le,← copied]
  refine (memcpy_gives (by rw [holds.size]; exact fits)).bind fun buf after => ?_
  have first := holds.copied fits after
  rw [length] at first
  simp only
  split
  · -- all of it is in the buffer
    rename_i none
    refine .returned ⟨rfl,?_,rfl,?_⟩
    · rw [whole,List.length_eq_zero_iff.mp none,List.append_nil]
      exact first
    · change w.supply + (w.file.pos + copySize) ≤ w.supply + w.file.pos + data.length
      omega
  · refine (first.flushBuffer.imp (fun enough => ?_) fun _ given => given).bind fun r flushed => ?_
    · change w.file.pos + copySize ≤ w.supply
      omega
    obtain ⟨ok,⟨second,isManifest,supply⟩,emptied⟩ := flushed
    rw [List.append_nil] at second
    replace supply : w.supply + r.2.file.pos ≤ r.2.supply + (w.file.pos + copySize) := supply
    simp only [ok,ne_eq,not_true_eq_false,if_false]
    split
    · -- the rest goes to the start of the buffer
      rename_i small
      have inside : r.2.file.pos + (data.drop copySize).length ≤ kWritableFileBufferSize := by omega
      have room : 0 + (data.drop copySize).length ≤ r.2.file.buf.length := by
        rw [second.size]
        omega
      refine (memcpy_gives room).bind fun buf after => ?_
      rw [← emptied] at after
      have last := second.copied inside after
      rw [← whole,emptied,Nat.zero_add] at last
      refine .returned ⟨rfl,last,isManifest,?_⟩
      change w.supply + (data.drop copySize).length ≤ r.2.supply + w.file.pos + data.length
      omega
    · refine (r.2.writeUnbuffered_gives _ second.unfailing).imp (fun enough => by omega) fun r' given => ?_
      obtain ⟨ok,file,written,unfailing,spent⟩ := given
      refine ⟨ok,⟨?_,?_,?_,unfailing⟩,?_,?_⟩
      · rw [file]
        exact second.size
      · rw [file]
        exact second.pos_le
      · have before := second.bytes
        rw [emptied,List.take_zero,List.append_nil] at before
        rw [file,emptied,List.take_zero,List.append_nil,written,before,whole]
      · rw [file]
        exact isManifest
      · rw [file]
        omega

/-- An append that the buffer has room for does not write. -/
theorem World.Holds.append_fits (holds : w.Holds stream) (data : Bytes)
    (fits : w.file.pos + data.length ≤ kWritableFileBufferSize) :
    ∃ w', w.append data = .ok (.ok,w') ∧ w'.file.pos = w.file.pos + data.length ∧
      w'.file.isManifest = w.file.isManifest := by
  have copySize : min data.length (kWritableFileBufferSize - w.file.pos) = data.length := by omega
  refine ⟨{ w with file := { w.file with
    buf := w.file.buf.take w.file.pos ++ data ++ w.file.buf.drop (w.file.pos + data.length)
    pos := w.file.pos + data.length } },?_,rfl,rfl⟩
  rw [World.append,room_eq holds.pos_le,copySize,List.take_length,memcpy,if_pos (by rw [holds.size]; exact fits)]
  simp only [List.drop_length,List.length_nil,if_true]
  rfl

/-- A sync that fails on the directory has not come to the buffer. -/
theorem World.sync_fails {opened dirSynced : Option Nat} (synced : Option Nat)
    (fails : w.syncDirIfManifest opened dirSynced ≠ .ok) :
    w.sync opened dirSynced synced = .ok (w.syncDirIfManifest opened dirSynced,w) := by
  simp only [World.sync,fails,ne_eq,not_false_eq_true,if_true]
  rfl

theorem World.Holds.sync (holds : w.Holds stream) (opened dirSynced synced : Option Nat) :
    Gives (w.file.pos ≤ w.supply) (fun r => w.Leaves stream [] r ∧
      (w.syncDirIfManifest opened dirSynced = .ok → r.2.file.pos = 0)) (w.sync opened dirSynced synced) := by
  rw [World.sync]
  simp only
  split
  · rename_i failed
    exact .returned ⟨⟨by rwa [List.append_nil],rfl,le_refl _⟩,fun ok => absurd ok failed⟩
  · refine holds.flushBuffer.bind fun r flushed => ?_
    obtain ⟨ok,leaves,emptied⟩ := flushed
    simp only [ok,ne_eq,not_true_eq_false,if_false]
    exact .returned ⟨⟨leaves.holds,leaves.isManifest,leaves.supply⟩,fun _ => emptied⟩

theorem World.Holds.close (holds : w.Holds stream) (closed : Option Nat) :
    Gives (w.file.pos ≤ w.supply) (fun r => w.Leaves stream [] r ∧ r.2.file.pos = 0) (w.close closed) := by
  refine holds.flushBuffer.bind fun r flushed => ?_
  obtain ⟨-,⟨⟨size,le,bytes,unfailing⟩,isManifest,supply⟩,emptied⟩ := flushed
  exact .returned ⟨⟨⟨size,le,bytes,unfailing⟩,isManifest,supply⟩,emptied⟩

/-- Whether the buffer is empty afterwards. -/
def Call.empties (isManifest : Bool) : Call → Bool
  | .append _ => false
  | .flush => true
  | .sync opened dirSynced _ => !isManifest || opened.isNone && dirSynced.isNone
  | .close _ => true

theorem World.Holds.call (holds : w.Holds stream) (call : Call) :
    Gives (w.file.pos + call.data.length ≤ w.supply) (fun r => w.Leaves stream call.data r ∧
      (call.empties w.file.isManifest = true → r.2.file.pos = 0)) (w.call call) := by
  cases call with
  | append data => exact (holds.append data).imp id fun r given => ⟨given.2,fun empties => nomatch empties⟩
  | flush => exact holds.flushBuffer.imp id fun r given => ⟨given.2.1,fun _ => given.2.2⟩
  | sync opened dirSynced synced =>
    refine (holds.sync opened dirSynced synced).imp id fun r given => ⟨given.1,fun empties => given.2 ?_⟩
    simp only [Call.empties,Bool.or_eq_true,Bool.not_eq_true',Bool.and_eq_true,Option.isNone_iff_eq_none] at empties
    rw [World.syncDirIfManifest]
    rcases empties with other | ⟨rfl,rfl⟩
    · rw [other]
      rfl
    · split <;> rfl
  | close closed => exact (holds.close closed).imp id fun r given => ⟨given.1,fun _ => given.2⟩

theorem World.Holds.run (holds : w.Holds stream) (calls : List Call) :
    Gives (w.file.pos + (calls.flatMap Call.data).length ≤ w.supply)
      (fun w' => w'.Holds (stream ++ calls.flatMap Call.data) ∧ w'.file.isManifest = w.file.isManifest)
      (w.run calls) := by
  induction calls generalizing w stream with
  | nil => exact .returned ⟨by simpa using holds,rfl⟩
  | cons call calls ih =>
    rw [World.run,List.flatMap_cons]
    have length : (call.data ++ calls.flatMap Call.data).length =
        call.data.length + (calls.flatMap Call.data).length := List.length_append
    refine ((holds.call call).imp (fun enough => by omega) fun _ given => given).bind fun r given => ?_
    obtain ⟨⟨next,isManifest,supply⟩,-⟩ := given
    refine (ih next).imp (fun enough => by omega) fun w' after => ?_
    rw [List.append_assoc] at after
    exact ⟨after.1,after.2.trans isManifest⟩

theorem World.run_cons {call : Call} {calls : List Call} {r : Status × World} (returned : w.call call = .ok r) :
    w.run (call :: calls) = r.2.run calls := by
  rw [World.run,returned]
  rfl

theorem World.run_append (w : World) (before after : List Call) :
    w.run (before ++ after) = w.run before >>= fun w' => w'.run after := by
  induction before generalizing w with
  | nil => rfl
  | cons call before ih =>
    simp only [List.cons_append,World.run,bind_assoc]
    exact bind_congr fun r => ih r.2

/-- The buffer is empty after a last call that empties it. -/
theorem World.Holds.run_last (holds : w.Holds stream) (before : List Call) (last : Call)
    (empties : last.empties w.file.isManifest = true) :
    Gives False (fun w' => w'.file.pos = 0) (w.run (before ++ [last])) := by
  rw [World.run_append]
  refine ((holds.run before).imp False.elim fun _ given => given).bind fun w' given => ?_
  obtain ⟨middle,isManifest⟩ := given
  rw [← isManifest] at empties
  refine ((middle.call last).imp False.elim fun _ given => given).bind fun r given => ?_
  exact .returned (given.2 empties)

end Calls

/-- A file that was just opened; what is in its buffer does not matter. -/
structure World.Fresh (w : World) : Prop where
  size : w.file.buf.length = kWritableFileBufferSize
  pos : w.file.pos = 0
  written : w.written = []

theorem World.Fresh.holds {w : World} (fresh : w.Fresh) (unfailing : Unfailing w.answers) : w.Holds [] :=
  ⟨fresh.size,by simp [fresh.pos],by simp [fresh.pos,fresh.written],unfailing⟩

/-- What was appended is what the descriptor was given and then the buffer, in order and
after any calls, and no call goes past the buffer. It is empty after `Flush` and `Close`,
and after `Sync` unless the directory of a manifest could not be synced. A kernel that
takes something as often as there are bytes lets all calls return. -/
theorem buffered_writes (w : World) (fresh : w.Fresh) (unfailing : Unfailing w.answers) (calls : List Call) :
    w.run calls ≠ .error .wildAccess ∧
      ((calls.flatMap Call.data).length ≤ w.supply → ∃ w', w.run calls = .ok w') ∧
      ∀ w', w.run calls = .ok w' → w'.file.pos ≤ kWritableFileBufferSize ∧
        w'.written ++ w'.file.buf.take w'.file.pos = calls.flatMap Call.data ∧
        ∀ before last, calls = before ++ [last] → last.empties w.file.isManifest = true → w'.file.pos = 0 := by
  have holds := fresh.holds unfailing
  have gives := holds.run calls
  refine ⟨gives.ne_wild,?_,fun w' returned => ?_⟩
  · intro enough
    obtain ⟨w',returned,-⟩ := gives.returns (by rwa [fresh.pos,Nat.zero_add])
    exact ⟨w',returned⟩
  · rw [returned] at gives
    obtain ⟨after,-⟩ := gives.holds
    refine ⟨after.pos_le,after.bytes,?_⟩
    rintro before last rfl empties
    have emptied := holds.run_last before last empties
    rw [returned] at emptied
    exact emptied.holds

section Small

def smallWorld (isManifest : Bool) (answers : List WriteResult) : World :=
  ⟨⟨List.replicate kWritableFileBufferSize 0,0,3,isManifest⟩,[],answers⟩

theorem smallWorld_fresh (isManifest : Bool) (answers : List WriteResult) : (smallWorld isManifest answers).Fresh :=
  ⟨List.length_replicate,rfl,rfl⟩

/-- An interrupt, and then a kernel that takes one byte at a time. -/
def slowAnswers (n : Nat) : List WriteResult := .interrupted :: List.replicate n (.wrote 1)

theorem slowAnswers_unfailing (n : Nat) : Unfailing (slowAnswers n) := by
  intro errorNumber
  simp [slowAnswers,List.mem_replicate]

theorem slowAnswers_supply (n : Nat) : (smallWorld true (slowAnswers n)).supply = n := by
  simp [World.supply,smallWorld,slowAnswers,List.countP_replicate,WriteResult.took]

/-- The second append fills the buffer, which is flushed before the rest is kept. -/
theorem buffered_writes_small : ∃ (one two : Bytes) (w' : World),
    one.length = 40000 ∧ two.length = 40000 ∧ kWritableFileBufferSize < one.length + two.length ∧
      (smallWorld true (slowAnswers 80000)).run [.append one,.append two,.flush] = .ok w' ∧
      w'.file.pos = 0 ∧ w'.written = one ++ two := by
  obtain ⟨one,length⟩ : ∃ one : Bytes, one.length = 40000 := ⟨List.replicate 40000 1,List.length_replicate⟩
  obtain ⟨two,length'⟩ : ∃ two : Bytes, two.length = 40000 := ⟨List.replicate 40000 2,List.length_replicate⟩
  obtain ⟨-,returns,results⟩ := buffered_writes (smallWorld true (slowAnswers 80000)) (smallWorld_fresh _ _)
    (slowAnswers_unfailing 80000) [.append one,.append two,.flush]
  obtain ⟨w',returned⟩ := returns (by
    rw [slowAnswers_supply]
    simp [Call.data,length,length'])
  obtain ⟨-,bytes,emptied⟩ := results w' returned
  have pos : w'.file.pos = 0 := emptied [.append one,.append two] .flush rfl rfl
  refine ⟨one,two,w',length,length',by rw [length,length']; decide,returned,pos,?_⟩
  simpa [pos,Call.data] using bytes

/-- The directory of a manifest cannot be opened (`EACCES`): the byte stays in the buffer. -/
theorem sync_keeps_buffer : ∃ w', (smallWorld true []).run [.append [1],.sync (some 13) none none] = .ok w' ∧
    w'.file.pos = 1 := by
  obtain ⟨w',appended,pos,isManifest⟩ :=
    ((smallWorld_fresh true []).holds fun _ => List.not_mem_nil).append_fits [1] (by decide)
  have fails : w'.syncDirIfManifest (some 13) none ≠ .ok := by
    rw [World.syncDirIfManifest,isManifest]
    decide
  refine ⟨w',?_,pos⟩
  have first : (smallWorld true []).call (.append [1]) = .ok (.ok,w') := appended
  have second : w'.call (.sync (some 13) none none) = .ok (w'.syncDirIfManifest (some 13) none,w') :=
    World.sync_fails none fails
  rw [World.run_cons first,World.run_cons second,World.run]

end Small

end LevelDB.Posix
