import LevelDB.MemEnv
import Mathlib.Tactic.Linarith

/-! `InMemoryEnv` refines a map from names to byte strings. A file of the reference is its
bytes; a name leads to a file and so does a handle, which keeps it when the name goes. -/
namespace LevelDB.MemEnv

variable {P B : Type}

section Blocks
variable {blocks : List (List B)} {bytes src : List B} {offset n : Nat}

theorem kBlockSize_pos : 0 < kBlockSize := by decide

theorem length_flatten_blocks (whole : ∀ b ∈ blocks, b.length = kBlockSize) :
    blocks.flatten.length = blocks.length * kBlockSize := by
  induction blocks with
  | nil => simp
  | cons b rest ih =>
    have first := whole b List.mem_cons_self
    rw [List.flatten_cons,List.length_append,List.length_cons,ih fun c hc => whole c (List.mem_cons_of_mem _ hc),first]
    rw [Nat.succ_mul,Nat.add_comm]

theorem drop_flatten_blocks (whole : ∀ b ∈ blocks, b.length = kBlockSize) (n : Nat) :
    blocks.flatten.drop (n * kBlockSize) = (blocks.drop n).flatten := by
  induction blocks generalizing n with
  | nil => simp
  | cons b rest ih =>
    cases n with
    | zero => simp
    | succ n =>
      have first := whole b List.mem_cons_self
      have size : (n + 1) * kBlockSize = b.length + n * kBlockSize := by rw [first,Nat.succ_mul,Nat.add_comm]
      rw [List.flatten_cons,size,List.drop_length_add_append,List.drop_succ_cons]
      exact ih (fun c hc => whole c (List.mem_cons_of_mem _ hc)) n

/-- The loop copies what the blocks hold one after the other. -/
theorem copyOut_eq (whole : ∀ b ∈ blocks, b.length = kBlockSize) (fuel block blockOffset count : Nat)
    (enough : count ≤ fuel) (inside : blockOffset < kBlockSize)
    (there : block * kBlockSize + blockOffset + count ≤ blocks.length * kBlockSize) :
    copyOut blocks fuel block blockOffset count = (blocks.flatten.drop (block * kBlockSize + blockOffset)).take count := by
  induction fuel generalizing block blockOffset count with
  | zero =>
    have none : count = 0 := Nat.le_zero.mp enough
    simp [copyOut,none]
  | succ fuel ih =>
    rw [copyOut]
    split
    · rename_i none
      simp [none]
    · have bound : block < blocks.length := by
        by_contra past
        have := Nat.mul_le_mul_right kBlockSize (Nat.le_of_not_lt past)
        omega
      have isBlock : blocks.getD block [] = blocks[block] := by simp [bound]
      have length : blocks[block].length = kBlockSize := whole _ (List.getElem_mem bound)
      have split : blocks.flatten.drop (block * kBlockSize + blockOffset) =
          blocks[block].drop blockOffset ++ blocks.flatten.drop ((block + 1) * kBlockSize) := by
        rw [← List.drop_drop,drop_flatten_blocks whole,drop_flatten_blocks whole,List.drop_eq_getElem_cons bound,
          List.flatten_cons,List.drop_append_of_le_length (by omega)]
      have size : (blocks[block].drop blockOffset).length = kBlockSize - blockOffset := by rw [List.length_drop,length]
      have step : (block + 1) * kBlockSize = block * kBlockSize + kBlockSize := Nat.succ_mul _ _
      simp only [isBlock]
      rw [split,List.take_append,size]
      by_cases last : count ≤ kBlockSize - blockOffset
      · have all : min (kBlockSize - blockOffset) count = count := by omega
        rw [all,Nat.sub_self,Nat.sub_eq_zero_of_le last,List.take_zero]
        cases fuel with
        | zero => rfl
        | succ fuel => rfl
      · have some_ : min (kBlockSize - blockOffset) count = kBlockSize - blockOffset := by omega
        rw [some_,ih (block + 1) 0 _ (by omega) kBlockSize_pos (by omega),Nat.add_zero]
        rw [List.take_of_length_le (by omega : (blocks[block].drop blockOffset).length ≤ kBlockSize - blockOffset),
          List.take_of_length_le (by omega : (blocks[block].drop blockOffset).length ≤ count)]

end Blocks

/-- The file has these bytes: the blocks are whole and the last one is begun. -/
structure FileState.Holds (f : FileState B) (bytes : List B) : Prop where
  size : f.size = bytes.length
  whole : ∀ b ∈ f.blocks, b.length = kBlockSize
  rest : ∃ rest, f.blocks.flatten = bytes ++ rest ∧ rest.length < kBlockSize

section Files
variable {f : FileState B} {bytes src : List B}

theorem FileState.Holds.truncate (refs : Nat) : FileState.Holds (⟨refs,[],0⟩ : FileState B) [] :=
  ⟨rfl,by simp,[],rfl,kBlockSize_pos⟩

/-- A part of a byte string, cut at its end. -/
def slice (bytes : List B) (offset n : Nat) : Except String (List B) :=
  if bytes.length < offset then .error "Offset greater than file size." else .ok ((bytes.drop offset).take n)

theorem FileState.Holds.read (holds : f.Holds bytes) (offset n : Nat) : f.read offset n = slice bytes offset n := by
  obtain ⟨rest,flat,-⟩ := holds.rest
  have total := congrArg List.length flat
  rw [length_flatten_blocks holds.whole,List.length_append] at total
  rw [FileState.read,slice,holds.size]
  split
  · rfl
  · rename_i inside
    have cut : (bytes.drop offset).take n = (bytes.drop offset).take (min n (bytes.length - offset)) := by
      rw [← List.length_drop,List.take_eq_take_min]
    rw [cut]
    simp only
    split
    · rename_i none
      rw [none,List.take_zero]
    · have place : offset / kBlockSize * kBlockSize + offset % kBlockSize = offset := Nat.div_add_mod' offset kBlockSize
      rw [copyOut_eq holds.whole _ _ _ _ le_rfl (Nat.mod_lt _ kBlockSize_pos) (by omega),place,flat,
        List.drop_append_of_le_length (by omega),List.take_append_of_le_length]
      rw [List.length_drop]
      omega

/-- The last block has room from the offset on; before it, the blocks hold the bytes. -/
theorem FileState.Holds.room [Inhabited B] (holds : f.Holds bytes) :
    ∃ first last, (if f.size % kBlockSize ≠ 0 then f.blocks else f.blocks ++ [List.replicate kBlockSize default]) =
        first ++ [last] ∧ last.length = kBlockSize ∧ (∀ b ∈ first, b.length = kBlockSize) ∧
      first.flatten ++ last.take (f.size % kBlockSize) = bytes := by
  obtain ⟨rest,flat,short⟩ := holds.rest
  have total := congrArg List.length flat
  rw [length_flatten_blocks holds.whole,List.length_append] at total
  have mod := Nat.div_add_mod' f.size kBlockSize
  have less := Nat.mod_lt f.size kBlockSize_pos
  rw [← holds.size] at total
  by_cases zero : f.size % kBlockSize = 0
  · rw [if_neg (by simpa using zero)]
    refine ⟨f.blocks,_,rfl,by simp,holds.whole,?_⟩
    have count : f.blocks.length = f.size / kBlockSize := by
      refine Nat.le_antisymm ?_ (Nat.le_of_mul_le_mul_right (by omega) kBlockSize_pos)
      refine Nat.le_of_lt_succ (Nat.lt_of_mul_lt_mul_right (a := kBlockSize) ?_)
      rw [Nat.succ_mul]
      omega
    have none : rest = [] := by
      rw [count] at total
      exact List.length_eq_zero_iff.mp (by omega)
    rw [zero,flat,none]
    simp
  · rw [if_pos zero]
    have count : f.blocks.length = f.size / kBlockSize + 1 := by
      refine Nat.le_antisymm (Nat.le_of_lt_succ (Nat.lt_of_mul_lt_mul_right (a := kBlockSize) ?_))
        (Nat.succ_le_of_lt (Nat.lt_of_mul_lt_mul_right (a := kBlockSize) (by omega)))
      rw [Nat.succ_mul,Nat.succ_mul]
      omega
    obtain none | ⟨first,last,split⟩ := List.eq_nil_or_concat f.blocks
    · rw [none] at count
      cases count
    · rw [List.concat_eq_append] at split
      have whole := holds.whole
      rw [split] at whole flat count ⊢
      have lastLength : last.length = kBlockSize := whole last (by simp)
      have firstWhole : ∀ b ∈ first, b.length = kBlockSize := fun b hb => whole b (by simp [hb])
      refine ⟨first,last,rfl,lastLength,firstWhole,?_⟩
      have firstLength := length_flatten_blocks firstWhole
      rw [List.length_append,List.length_singleton,Nat.add_right_cancel_iff] at count
      have cut := congrArg (List.take f.size) flat
      rw [List.flatten_append,List.flatten_singleton,List.take_append,List.take_of_length_le (by rw [firstLength,count]; omega),
        firstLength,count,holds.size,List.take_left] at cut
      rw [← cut,← holds.size]
      congr 2
      omega

/-- One pass of the loop adds what fits into the block. -/
theorem FileState.Holds.pass [Inhabited B] (holds : f.Holds bytes) (src : List B) (more : src.length ≠ 0) :
    let offset := f.size % kBlockSize
    let blocks := if offset ≠ 0 then f.blocks else f.blocks ++ [List.replicate kBlockSize default]
    let avail := min (if offset ≠ 0 then kBlockSize - offset else kBlockSize) src.length
    FileState.Holds { f with
      blocks := blocks.dropLast ++ [overwrite (blocks.getLastD []) offset (src.take avail)]
      size := f.size + avail } (bytes ++ src.take avail) := by
  intro offset blocks avail
  obtain ⟨first,last,split,length,whole,held⟩ := holds.room
  have less : offset < kBlockSize := Nat.mod_lt f.size kBlockSize_pos
  have fits : avail ≤ kBlockSize - offset ∧ avail ≤ src.length ∧ 0 < avail := by
    show min (if offset ≠ 0 then kBlockSize - offset else kBlockSize) src.length ≤ _ ∧
      min (if offset ≠ 0 then kBlockSize - offset else kBlockSize) src.length ≤ _ ∧
      0 < min (if offset ≠ 0 then kBlockSize - offset else kBlockSize) src.length
    split <;> omega
  have taken : (src.take avail).length = avail := List.length_take_of_le fits.2.1
  have isLast : blocks.dropLast = first ∧ blocks.getLastD [] = last := by
    have same : blocks = first ++ [last] := split
    rw [same]
    simp
  have size : (overwrite last offset (src.take avail)).length = kBlockSize := by
    rw [overwrite,List.length_append,List.length_append,List.length_take,List.length_drop,taken,length]
    omega
  rw [isLast.1,isLast.2]
  refine ⟨?_,fun b hb => ?_,last.drop (offset + avail),?_,?_⟩
  · rw [List.length_append,taken,holds.size]
  · rcases List.mem_append.mp hb with old | new
    · exact whole b old
    · rw [List.mem_singleton.mp new]
      exact size
  · rw [List.flatten_append,List.flatten_singleton,overwrite,taken,← held]
    simp only [List.append_assoc]
    rfl
  · rw [List.length_drop,length]
    omega

theorem FileState.Holds.copyIn [Inhabited B] (fuel : Nat) (holds : f.Holds bytes) (src : List B)
    (enough : src.length ≤ fuel) : (f.copyIn fuel src).Holds (bytes ++ src) := by
  induction fuel generalizing f bytes src with
  | zero =>
    rw [List.length_eq_zero_iff.mp (Nat.le_zero.mp enough),List.append_nil]
    exact holds
  | succ fuel ih =>
    rw [FileState.copyIn]
    split
    · rename_i none
      rw [List.length_eq_zero_iff.mp none,List.append_nil]
      exact holds
    · rename_i more
      have pass := holds.pass src more
      have less := Nat.mod_lt f.size kBlockSize_pos
      have positive : 0 < min (if f.size % kBlockSize ≠ 0 then kBlockSize - f.size % kBlockSize else kBlockSize)
          src.length := by
        split <;> omega
      simp only at pass ⊢
      generalize min (if f.size % kBlockSize ≠ 0 then kBlockSize - f.size % kBlockSize else kBlockSize)
        src.length = avail at pass positive ⊢
      have next := ih pass (src.drop avail) (by rw [List.length_drop]; omega)
      rw [List.append_assoc,List.take_append_drop] at next
      exact next

theorem FileState.Holds.append [Inhabited B] (holds : f.Holds bytes) (data : List B) :
    (f.append data).Holds (bytes ++ data) :=
  holds.copyIn data.length data le_rfl

theorem FileState.append_refs [Inhabited B] (f : FileState B) (data : List B) : (f.append data).refs = f.refs := by
  have all : ∀ (fuel : Nat) (f : FileState B) (src : List B), (f.copyIn fuel src).refs = f.refs := by
    intro fuel
    induction fuel with
    | zero => exact fun f src => rfl
    | succ fuel ih =>
      intro f src
      rw [FileState.copyIn]
      split
      · rfl
      · exact ih _ _
  exact all data.length f data

end Files

/-- The reference: names lead to files, and a file is a byte string. -/
structure FileMap (P B : Type) where
  paths : P → Option Nat
  contents : Nat → List B
  next : Nat
  handles : List (Option Handle)

def FileMap.empty : FileMap P B := ⟨fun _ => none,fun _ => [],0,[]⟩

section Reference
variable [DecidableEq P]

def FileMap.openFile (r : FileMap P B) (h : Handle) : Result P B × FileMap P B :=
  (.opened r.handles.length,{ r with handles := r.handles ++ [some h] })

def FileMap.openExisting (r : FileMap P B) (fname : P) (handle : Nat → Handle) : Result P B × FileMap P B :=
  match r.paths fname with
  | none => (.ioError (some fname) "File not found",r)
  | some a => r.openFile (handle a)

/-- A new empty file at the name. -/
def FileMap.create (r : FileMap P B) (fname : P) : FileMap P B :=
  { r with
    paths := Function.update r.paths fname (some r.next)
    contents := Function.update r.contents r.next []
    next := r.next + 1 }

def FileMap.newWritableFile (r : FileMap P B) (fname : P) : Result P B × FileMap P B :=
  match r.paths fname with
  | none => (r.create fname).openFile (.writable r.next)
  | some a => FileMap.openFile { r with contents := Function.update r.contents a [] } (.writable a)

def FileMap.newAppendableFile (r : FileMap P B) (fname : P) : Result P B × FileMap P B :=
  match r.paths fname with
  | none => (r.create fname).openFile (.writable r.next)
  | some a => r.openFile (.writable a)

def FileMap.setHandle (r : FileMap P B) (handle : Nat) (h : Option Handle) : FileMap P B :=
  { r with handles := r.handles.set handle h }

def FileMap.use (r : FileMap P B) (handle : Nat) (call : Handle → List B → Result P B × FileMap P B) :
    Result P B × FileMap P B :=
  match r.handles[handle]? with
  | some (some h) => call h (r.contents h.file)
  | _ => (.noHandle,r)

def FileMap.append (r : FileMap P B) (handle : Nat) (data : List B) : Result P B × FileMap P B :=
  r.use handle fun
    | .writable a, bytes => (.ok,{ r with contents := Function.update r.contents a (bytes ++ data) })
    | _, _ => (.noHandle,r)

def FileMap.read (r : FileMap P B) (handle n : Nat) : Result P B × FileMap P B :=
  r.use handle fun
    | .sequential a pos, bytes => match slice bytes pos n with
      | .ok part => (.data part,r.setHandle handle (some (.sequential a (pos + part.length))))
      | .error msg => (.ioError none msg,r)
    | _, _ => (.noHandle,r)

def FileMap.skip (r : FileMap P B) (handle n : Nat) : Result P B × FileMap P B :=
  r.use handle fun
    | .sequential a pos, bytes =>
      if bytes.length < pos then (.ioError none "pos_ > file_->Size()",r)
      else (.ok,r.setHandle handle (some (.sequential a (min (pos + n) bytes.length))))
    | _, _ => (.noHandle,r)

def FileMap.readAt (r : FileMap P B) (handle offset n : Nat) : Result P B × FileMap P B :=
  r.use handle fun
    | .random _, bytes => match slice bytes offset n with
      | .ok part => (.data part,r)
      | .error msg => (.ioError none msg,r)
    | _, _ => (.noHandle,r)

def FileMap.close (r : FileMap P B) (handle : Nat) : Result P B × FileMap P B :=
  r.use handle fun _ _ => (.ok,r.setHandle handle none)

def FileMap.getFileSize (r : FileMap P B) (fname : P) : Result P B :=
  match r.paths fname with
  | none => .ioError (some fname) "File not found"
  | some a => .size (r.contents a).length

def FileMap.removeFile (r : FileMap P B) (fname : P) : Result P B × FileMap P B :=
  match r.paths fname with
  | none => (.ioError (some fname) "File not found",r)
  | some _ => (.ok,{ r with paths := Function.update r.paths fname none })

def FileMap.renameFile (r : FileMap P B) (src target : P) : Result P B × FileMap P B :=
  match r.paths src with
  | none => (.ioError (some src) "File not found",r)
  | some a => (.ok,{ r with paths := Function.update (Function.update r.paths src none) target (some a) })

def FileMap.step (r : FileMap P B) : Op P B → Result P B × FileMap P B
  | .newSequentialFile fname => r.openExisting fname fun a => .sequential a 0
  | .newRandomAccessFile fname => r.openExisting fname .random
  | .newWritableFile fname => r.newWritableFile fname
  | .newAppendableFile fname => r.newAppendableFile fname
  | .append handle data => r.append handle data
  | .read handle n => r.read handle n
  | .skip handle n => r.skip handle n
  | .readAt handle offset n => r.readAt handle offset n
  | .close handle => r.close handle
  | .fileExists fname => (.exists (r.paths fname).isSome,r)
  | .getFileSize fname => (r.getFileSize fname,r)
  | .removeFile fname => r.removeFile fname
  | .renameFile src target => r.renameFile src target

def FileMap.run (r : FileMap P B) : List (Op P B) → List (Result P B) × FileMap P B
  | [] => ([],r)
  | op :: rest =>
    let (result,next) := r.step op
    let (results,last) := next.run rest
    (result :: results,last)

/-- `NewAppendableFile` is for files that exist, and a file is not renamed to itself. -/
def Op.regular (e : Env P B) : Op P B → Bool
  | .newAppendableFile fname => (e.fileMap fname).isSome
  | .renameFile src target => src ≠ target || (e.fileMap src).isNone
  | _ => true

def Env.regular [Inhabited B] (e : Env P B) : List (Op P B) → Bool
  | [] => true
  | op :: rest => op.regular e && (e.step op).2.regular rest

end Reference

/-- Whether a name leads to the file. -/
noncomputable def FileMap.named (r : FileMap P B) (file : Nat) : Nat :=
  open Classical in if ∃ p, r.paths p = some file then 1 else 0

/-- How many handles lead to the file. -/
def FileMap.held (r : FileMap P B) (file : Nat) : Nat := r.handles.countP fun h => decide (h.map Handle.file = some file)

noncomputable def FileMap.references (r : FileMap P B) (file : Nat) : Nat := r.named file + r.held file

/-- The objects of the files that are referenced hold their bytes and count the references. -/
def Stores (heap : Nat → Option (FileState B)) (count : Nat → Nat) (contents : Nat → List B) : Prop :=
  ∀ a, 0 < count a → ∃ f, heap a = some f ∧ f.Holds (contents a) ∧ f.refs = count a

structure Refines (e : Env P B) (r : FileMap P B) : Prop where
  next : e.next = r.next
  handles : e.handles = r.handles
  names : ∀ p, e.fileMap p = (r.paths p).map some
  injective : ∀ p q a, r.paths p = some a → r.paths q = some a → p = q
  below : ∀ a, 0 < r.references a → a < r.next
  files : Stores e.heap r.references r.contents

section Stores
variable {heap : Nat → Option (FileState B)} {count count' : Nat → Nat} {contents : Nat → List B} {a : Nat}
  {f : FileState B}

theorem Stores.ref (stores : Stores heap count contents) (there : heap a = some f) (positive : 0 < count a)
    (more : ∀ b, count' b = count b + if b = a then 1 else 0) :
    Stores (Function.update heap a (some { f with refs := f.refs + 1 })) count' contents := by
  intro b counted
  have same := more b
  by_cases here : b = a
  · subst here
    obtain ⟨g,found,holds,refs⟩ := stores b positive
    rw [there] at found
    cases found
    refine ⟨_,Function.update_self _ _ _,⟨holds.size,holds.whole,holds.rest⟩,?_⟩
    rw [if_pos rfl] at same
    rw [same,← refs]
  · rw [if_neg here] at same
    rw [same] at counted
    obtain ⟨g,found,holds,refs⟩ := stores b counted
    exact ⟨g,(Function.update_of_ne here _ _).trans found,holds,refs.trans same.symm⟩

theorem Stores.unref (stores : Stores heap count contents) (there : heap a = some f)
    (less : ∀ b, count' b + (if b = a then 1 else 0) = count b) :
    Stores (Function.update heap a (if f.refs - 1 = 0 then none else some { f with refs := f.refs - 1 })) count'
      contents := by
  intro b counted
  have same := less b
  by_cases here : b = a
  · subst here
    rw [if_pos rfl] at same
    obtain ⟨g,found,holds,refs⟩ := stores b (by omega)
    rw [there] at found
    cases found
    rw [if_neg (by omega)]
    exact ⟨_,Function.update_self _ _ _,⟨holds.size,holds.whole,holds.rest⟩,by simp only; omega⟩
  · rw [if_neg here] at same
    obtain ⟨g,found,holds,refs⟩ := stores b (by omega)
    exact ⟨g,(Function.update_of_ne here _ _).trans found,holds,by omega⟩

theorem Stores.write (stores : Stores heap count contents) {bytes : List B} (holds : f.Holds bytes)
    (refs : f.refs = count' a) (others : ∀ b, b ≠ a → count' b = count b) :
    Stores (Function.update heap a (some f)) count' (Function.update contents a bytes) := by
  intro b counted
  by_cases here : b = a
  · subst here
    refine ⟨f,Function.update_self _ _ _,?_,refs⟩
    rw [Function.update_self]
    exact holds
  · rw [others b here] at counted
    obtain ⟨g,found,held,same⟩ := stores b counted
    refine ⟨g,(Function.update_of_ne here _ _).trans found,?_,same.trans (others b here).symm⟩
    rw [Function.update_of_ne here]
    exact held

end Stores

section References
variable {r r' : FileMap P B} {a : Nat} {fname : P}

theorem FileMap.named_one (found : r.paths fname = some a) : r.named a = 1 := if_pos ⟨fname,found⟩

theorem FileMap.named_zero (none : ∀ p, r.paths p ≠ some a) : r.named a = 0 :=
  if_neg fun ⟨p,found⟩ => none p found

theorem FileMap.named_congr (same : ∀ p, r'.paths p = some a ↔ r.paths p = some a) : r'.named a = r.named a := by
  rw [FileMap.named,FileMap.named,propext (exists_congr same)]

theorem FileMap.references_pos_of_path (found : r.paths fname = some a) : 0 < r.references a := by
  rw [FileMap.references,FileMap.named_one found]
  omega

theorem FileMap.held_pos {i : Nat} {h : Handle} (there : r.handles[i]? = some (some h)) : 0 < r.held h.file :=
  List.countP_pos_iff.mpr ⟨some h,List.mem_of_getElem? there,by simp⟩

theorem FileMap.references_pos_of_handle {i : Nat} {h : Handle} (there : r.handles[i]? = some (some h)) :
    0 < r.references h.file := by
  have held := FileMap.held_pos there
  rw [FileMap.references]
  omega

theorem FileMap.references_open (r : FileMap P B) (h : Handle) (b : Nat) :
    (r.openFile h).2.references b = r.references b + if b = h.file then 1 else 0 := by
  have held : (r.openFile h).2.held b = r.held b + if b = h.file then 1 else 0 := by
    simp only [FileMap.held,FileMap.openFile,List.countP_append,List.countP_singleton,Option.map_some,Option.some.injEq,
      decide_eq_true_eq,eq_comm (a := b)]
  rw [FileMap.references,FileMap.references,held]
  exact (Nat.add_assoc _ _ _).symm

theorem FileMap.references_set {i : Nat} {h : Handle} (there : r.handles[i]? = some (some h)) (h' : Option Handle)
    (b : Nat) : (r.setHandle i h').references b + (if b = h.file then 1 else 0) =
      r.references b + if h'.map Handle.file = some b then 1 else 0 := by
  obtain ⟨bound,same⟩ := List.getElem?_eq_some_iff.mp there
  have counted : b = h.file → 0 < r.held b := by
    rintro rfl
    exact FileMap.held_pos there
  have held : (r.setHandle i h').held b = r.held b - (if b = h.file then 1 else 0) +
      if h'.map Handle.file = some b then 1 else 0 := by
    simp only [FileMap.held,FileMap.setHandle,List.countP_set bound,same,Option.map_some,Option.some.injEq,
      decide_eq_true_eq,eq_comm (a := b)]
  have named : (r.setHandle i h').named b = r.named b := rfl
  rw [FileMap.references,FileMap.references,held,named]
  split
  · rename_i here
    have := counted here
    omega
  · omega

variable [DecidableEq P]

/-- Of the files, only the one that the name led to and the one it leads to now are concerned. -/
theorem FileMap.named_update (file : Option Nat) {b : Nat} (old : r.paths fname ≠ some b) (new : file ≠ some b) :
    FileMap.named { r with paths := Function.update r.paths fname file } b = r.named b := by
  refine FileMap.named_congr fun p => ?_
  by_cases isName : p = fname
  · subst isName
    simp only [Function.update_self]
    exact ⟨fun same => absurd same new,fun same => absurd same old⟩
  · simp only [Function.update_of_ne isName]

theorem FileMap.references_add (absent : r.paths fname = none) (fresh : ∀ q, r.paths q ≠ some a) (b : Nat) :
    FileMap.references { r with paths := Function.update r.paths fname (some a) } b =
      r.references b + if b = a then 1 else 0 := by
  have held : FileMap.held { r with paths := Function.update r.paths fname (some a) } b = r.held b := rfl
  rw [FileMap.references,FileMap.references,held]
  by_cases here : b = a
  · subst here
    have named : Function.update r.paths fname (some b) fname = some b := Function.update_self _ _ _
    rw [FileMap.named_one named,FileMap.named_zero fresh,if_pos rfl]
    omega
  · rw [FileMap.named_update (some a) (by simp [absent]) (by simpa using Ne.symm here),if_neg here]
    rfl

theorem FileMap.references_remove (found : r.paths fname = some a)
    (injective : ∀ p q a, r.paths p = some a → r.paths q = some a → p = q) (b : Nat) :
    FileMap.references { r with paths := Function.update r.paths fname none } b + (if b = a then 1 else 0) =
      r.references b := by
  have held : FileMap.held { r with paths := Function.update r.paths fname none } b = r.held b := rfl
  rw [FileMap.references,FileMap.references,held]
  by_cases here : b = a
  · subst here
    have gone : ∀ p, Function.update r.paths fname none p ≠ some b := by
      intro p other
      by_cases isName : p = fname
      · subst isName
        rw [Function.update_self] at other
        cases other
      · rw [Function.update_of_ne isName] at other
        exact isName (injective p fname b other found)
    rw [FileMap.named_zero gone,FileMap.named_one found,if_pos rfl]
    omega
  · rw [FileMap.named_update none (by simpa [found] using Ne.symm here) (by simp),if_neg here]
    rfl

end References

/-- The same result, and the states go on together. -/
def Agree (x : Result P B × Env P B) (y : Result P B × FileMap P B) : Prop := x.1 = y.1 ∧ Refines x.2 y.2

section Steps
variable {e : Env P B} {r : FileMap P B} {a : Nat} {fname : P}

theorem Refines.found [DecidableEq P] (refines : Refines e r) (counted : 0 < r.references a) :
    ∃ f, e.deref (some a) = some (a,f) ∧ e.heap a = some f ∧ f.Holds (r.contents a) ∧ f.refs = r.references a := by
  obtain ⟨f,there,holds,refs⟩ := refines.files a counted
  exact ⟨f,by simp [Env.deref,there],there,holds,refs⟩

theorem Refines.openFile [DecidableEq P] (refines : Refines e r) (counted : 0 < r.references a) (handle : Nat → Handle)
    (file : (handle a).file = a) : Agree (e.openFile (some a) handle) (r.openFile (handle a)) := by
  obtain ⟨f,deref,there,-,-⟩ := refines.found counted
  rw [Env.openFile,deref]
  have more : ∀ b, (r.openFile (handle a)).2.references b = r.references b + if b = a then 1 else 0 := by
    intro b
    rw [r.references_open,file]
  refine ⟨congrArg Result.opened (congrArg List.length refines.handles),⟨refines.next,?_,refines.names,
    refines.injective,fun b counted' => ?_,refines.files.ref there counted more⟩⟩
  · exact congrArg (· ++ [some (handle a)]) refines.handles
  · refine refines.below b ?_
    rw [more b] at counted'
    split at counted'
    · rename_i here
      rw [here]
      exact counted
    · exact counted'

variable [DecidableEq P]

theorem Refines.openExisting (refines : Refines e r) (fname : P) (handle : Nat → Handle)
    (file : ∀ a, (handle a).file = a) : Agree (e.openExisting fname handle) (r.openExisting fname handle) := by
  rw [Env.openExisting,FileMap.openExisting,refines.names]
  cases found : r.paths fname with
  | none => exact ⟨rfl,refines⟩
  | some a => exact refines.openFile (FileMap.references_pos_of_path found) handle (file a)

/-- A new file at a name that did not exist. -/
theorem Refines.create (refines : Refines e r) (absent : r.paths fname = none) :
    Refines (e.newFile.setName fname (some (some e.next))) (r.create fname) ∧ 0 < (r.create fname).references r.next := by
  have zero : r.references r.next = 0 := by
    by_contra counted
    exact absurd (refines.below r.next (Nat.pos_of_ne_zero counted)) (lt_irrefl _)
  have fresh : ∀ q, r.paths q ≠ some r.next := by
    intro q found
    exact absurd zero (FileMap.references_pos_of_path found).ne'
  have count : ∀ b, (r.create fname).references b = r.references b + if b = r.next then 1 else 0 :=
    FileMap.references_add absent fresh
  have one : (r.create fname).references r.next = 1 := by rw [count,zero,if_pos rfl]
  refine ⟨⟨congrArg (· + 1) refines.next,refines.handles,fun p => ?_,fun p q a hp hq => ?_,fun a counted => ?_,?_⟩,
    by omega⟩
  · show Function.update e.fileMap fname (some (some e.next)) p = (Function.update r.paths fname (some r.next) p).map some
    by_cases isName : p = fname
    · subst isName
      rw [Function.update_self,Function.update_self,refines.next]
      rfl
    · rw [Function.update_of_ne isName,Function.update_of_ne isName,refines.names]
  · have isNew : ∀ p, Function.update r.paths fname (some r.next) p = some a → p = fname ∧ a = r.next ∨
        p ≠ fname ∧ r.paths p = some a := by
      intro p found
      by_cases isName : p = fname
      · subst isName
        rw [Function.update_self] at found
        exact .inl ⟨rfl,(Option.some.inj found).symm⟩
      · rw [Function.update_of_ne isName] at found
        exact .inr ⟨isName,found⟩
    rcases isNew p hp with ⟨rfl,rfl⟩ | ⟨-,oldP⟩ <;> rcases isNew q hq with ⟨rfl,same⟩ | ⟨-,oldQ⟩
    · rfl
    · exact absurd oldQ (fresh q)
    · rw [same] at oldP
      exact absurd oldP (fresh p)
    · exact refines.injective p q a oldP oldQ
  · show a < r.next + 1
    rw [count a] at counted
    split at counted
    · omega
    · exact Nat.lt_succ_of_lt (refines.below a counted)
  · show Stores (Function.update e.heap e.next _) _ (Function.update r.contents r.next [])
    rw [refines.next]
    refine refines.files.write (FileState.Holds.truncate 1) one.symm fun b other => ?_
    rw [count b,if_neg other,Nat.add_zero]

theorem Refines.newWritableFile (refines : Refines e r) (fname : P) :
    Agree (e.newWritableFile fname) (r.newWritableFile fname) := by
  rw [Env.newWritableFile,FileMap.newWritableFile,refines.names]
  cases found : r.paths fname with
  | none =>
    obtain ⟨next,counted⟩ := refines.create found
    have opened := next.openFile counted .writable rfl
    simp only [Option.map_none]
    rw [refines.next] at opened ⊢
    exact opened
  | some a =>
    obtain ⟨f,deref,there,holds,refs⟩ := refines.found (FileMap.references_pos_of_path found)
    simp only [Option.map_some,deref]
    have next : Refines (e.store a (some f.truncate)) { r with contents := Function.update r.contents a [] } :=
      ⟨refines.next,refines.handles,refines.names,refines.injective,refines.below,
        refines.files.write (FileState.Holds.truncate _) refs fun _ _ => rfl⟩
    exact next.openFile (FileMap.references_pos_of_path (r := { r with contents := _ }) found) .writable rfl

theorem Refines.newAppendableFile (refines : Refines e r) (exists_ : (e.fileMap fname).isSome = true) :
    Agree (e.newAppendableFile fname) (r.newAppendableFile fname) := by
  rw [Env.newAppendableFile,FileMap.newAppendableFile]
  rw [refines.names] at exists_ ⊢
  cases found : r.paths fname with
  | none =>
    rw [found] at exists_
    cases exists_
  | some a => exact refines.openFile (FileMap.references_pos_of_path found) .writable rfl

theorem Refines.removeFileInternal (refines : Refines e r) (fname : P) :
    ∃ e', e.removeFileInternal fname = some e' ∧
      Refines e' { r with paths := Function.update r.paths fname none } := by
  rw [Env.removeFileInternal,refines.names]
  cases found : r.paths fname with
  | none =>
    have same : Function.update r.paths fname none = r.paths := by rw [← found,Function.update_eq_self]
    rw [same]
    exact ⟨e,rfl,refines⟩
  | some a =>
    obtain ⟨f,deref,there,holds,refs⟩ := refines.found (FileMap.references_pos_of_path found)
    have less := FileMap.references_remove found refines.injective
    simp only [Option.map_some,Env.unref,deref]
    refine ⟨_,rfl,refines.next,refines.handles,fun p => ?_,fun p q b hp hq => ?_,fun b counted => ?_,
      refines.files.unref there less⟩
    · show Function.update e.fileMap fname none p = (Function.update r.paths fname none p).map some
      by_cases isName : p = fname
      · subst isName
        rw [Function.update_self,Function.update_self]
        rfl
      · rw [Function.update_of_ne isName,Function.update_of_ne isName,refines.names]
    · have old : ∀ p, Function.update r.paths fname none p = some b → r.paths p = some b := by
        intro p found'
        by_cases isName : p = fname
        · subst isName
          rw [Function.update_self] at found'
          cases found'
        · rwa [Function.update_of_ne isName] at found'
      exact refines.injective p q b (old p hp) (old q hq)
    · have := less b
      exact refines.below b (by omega)

theorem Refines.removeFile (refines : Refines e r) (fname : P) : Agree (e.removeFile fname) (r.removeFile fname) := by
  obtain ⟨e',removed,next⟩ := refines.removeFileInternal fname
  rw [Env.removeFile,FileMap.removeFile,refines.names,removed]
  cases found : r.paths fname with
  | none => exact ⟨rfl,refines⟩
  | some a => exact ⟨rfl,next⟩

/-- A name that is free takes over the file of another one. -/
theorem Refines.rename {src target : P} {r' : FileMap P B} (refines : Refines e r) (found : r.paths src = some a)
    (free : r.paths target = none) (apart : src ≠ target)
    (same : r' = { r with paths := Function.update (Function.update r.paths src none) target (some a) }) :
    Refines ((e.setName target (some (some a))).setName src none) r' := by
  subst same
  have gone : ∀ q, Function.update r.paths src none q ≠ some a := by
    intro q other
    by_cases isName : q = src
    · subst isName
      rw [Function.update_self] at other
      cases other
    · rw [Function.update_of_ne isName] at other
      exact isName (refines.injective q src a other found)
  have less := FileMap.references_remove found refines.injective
  have count : ∀ b, FileMap.references
      { r with paths := Function.update (Function.update r.paths src none) target (some a) } b = r.references b := by
    intro b
    have unnamed : Function.update r.paths src none target = none := (Function.update_of_ne apart.symm _ _).trans free
    have more := FileMap.references_add (r := { r with paths := Function.update r.paths src none }) unnamed gone b
    exact more.trans (less b)
  have old : ∀ p b, Function.update (Function.update r.paths src none) target (some a) p = some b →
      p = target ∧ b = a ∨ p ≠ target ∧ b ≠ a ∧ r.paths p = some b := by
    intro p b isFile
    by_cases isName : p = target
    · subst isName
      rw [Function.update_self] at isFile
      exact .inl ⟨rfl,(Option.some.inj isFile).symm⟩
    · rw [Function.update_of_ne isName] at isFile
      refine .inr ⟨isName,?_,?_⟩
      · rintro rfl
        exact gone p isFile
      · by_cases isSrc : p = src
        · subst isSrc
          rw [Function.update_self] at isFile
          cases isFile
        · rwa [Function.update_of_ne isSrc] at isFile
  refine ⟨refines.next,refines.handles,fun p => ?_,fun p q b hp hq => ?_,fun b counted => ?_,fun b counted => ?_⟩
  · show Function.update (Function.update e.fileMap target (some (some a))) src none p =
      (Function.update (Function.update r.paths src none) target (some a) p).map some
    rw [Function.update_comm apart.symm]
    by_cases isTarget : p = target
    · subst isTarget
      rw [Function.update_self,Function.update_self]
      rfl
    · rw [Function.update_of_ne isTarget,Function.update_of_ne isTarget]
      by_cases isSrc : p = src
      · subst isSrc
        rw [Function.update_self,Function.update_self]
        rfl
      · rw [Function.update_of_ne isSrc,Function.update_of_ne isSrc,refines.names]
  · rcases old p b hp with ⟨rfl,rfl⟩ | ⟨-,other,oldP⟩
    · rcases old q b hq with ⟨rfl,-⟩ | ⟨-,other,-⟩
      · rfl
      · exact absurd rfl other
    · rcases old q b hq with ⟨-,same⟩ | ⟨-,-,oldQ⟩
      · exact absurd same other
      · exact refines.injective p q b oldP oldQ
  · exact refines.below b (count b ▸ counted)
  · obtain ⟨f,there,holds,refs⟩ := refines.files b (count b ▸ counted)
    exact ⟨f,there,holds,refs.trans (count b).symm⟩

theorem Refines.renameFile (refines : Refines e r) {src target : P}
    (other : src ≠ target ∨ (e.fileMap src).isNone = true) : Agree (e.renameFile src target) (r.renameFile src target) := by
  obtain ⟨e',removed,next⟩ := refines.removeFileInternal target
  rw [refines.names] at other
  rw [Env.renameFile,FileMap.renameFile,refines.names,removed]
  cases found : r.paths src with
  | none => exact ⟨rfl,refines⟩
  | some a =>
    have apart : src ≠ target := other.resolve_right (by simp [found])
    have still : Function.update r.paths target none src = some a := (Function.update_of_ne apart _ _).trans found
    have file : e'.fileMap src = some (some a) := by
      rw [next.names]
      show (Function.update r.paths target none src).map some = _
      rw [still]
      rfl
    simp only [Option.map_some,file,Option.getD_some]
    refine ⟨rfl,next.rename still (Function.update_self _ _ _) apart ?_⟩
    simp only
    rw [Function.update_comm apart.symm,Function.update_idem]

/-- A call of an open handle meets the bytes of its file. -/
theorem Refines.use (refines : Refines e r) (handle : Nat) {call : Handle → FileState B → Result P B × Env P B}
    {call' : Handle → List B → Result P B × FileMap P B}
    (agree : ∀ h f, r.handles[handle]? = some (some h) → e.heap h.file = some f → f.Holds (r.contents h.file) →
      f.refs = r.references h.file → Agree (call h f) (call' h (r.contents h.file))) :
    Agree (e.use handle call) (r.use handle call') := by
  rw [Env.use,FileMap.use,refines.handles]
  cases there : r.handles[handle]? with
  | none => exact ⟨rfl,refines⟩
  | some x => cases x with
    | none => exact ⟨rfl,refines⟩
    | some h =>
      obtain ⟨f,-,found,holds,refs⟩ := refines.found (FileMap.references_pos_of_handle there)
      simp only [found]
      exact agree h f there found holds refs

omit [DecidableEq P] in
/-- A handle moves on in its file. -/
theorem Refines.move (refines : Refines e r) {handle : Nat} {h h' : Handle} (there : r.handles[handle]? = some (some h))
    (same : h'.file = h.file) : Refines (e.setHandle handle (some h')) (r.setHandle handle (some h')) := by
  have count : ∀ b, (r.setHandle handle (some h')).references b = r.references b := by
    intro b
    have set := FileMap.references_set there (some h') b
    simp only [Option.map_some,same,Option.some.injEq,eq_comm (a := h.file)] at set
    exact Nat.add_right_cancel set
  refine ⟨refines.next,congrArg (List.set · handle (some h')) refines.handles,refines.names,refines.injective,
    fun b counted => refines.below b (count b ▸ counted),fun b counted => ?_⟩
  obtain ⟨f,found,holds,refs⟩ := refines.files b (count b ▸ counted)
  exact ⟨f,found,holds,refs.trans (count b).symm⟩

theorem Refines.append [Inhabited B] (refines : Refines e r) (handle : Nat) (data : List B) :
    Agree (e.append handle data) (r.append handle data) := by
  refine refines.use handle fun h f there found holds refs => ?_
  cases h with
  | sequential a pos => exact ⟨rfl,refines⟩
  | random a => exact ⟨rfl,refines⟩
  | writable a =>
    exact ⟨rfl,refines.next,refines.handles,refines.names,refines.injective,refines.below,
      refines.files.write (holds.append data) ((f.append_refs data).trans refs) fun _ _ => rfl⟩

theorem Refines.read (refines : Refines e r) (handle n : Nat) : Agree (e.read handle n) (r.read handle n) := by
  refine refines.use handle fun h f there found holds refs => ?_
  cases h with
  | sequential a pos =>
    simp only [holds.read,Handle.file]
    cases slice (r.contents a) pos n with
    | ok bytes => exact ⟨rfl,refines.move there rfl⟩
    | error msg => exact ⟨rfl,refines⟩
  | random a => exact ⟨rfl,refines⟩
  | writable a => exact ⟨rfl,refines⟩

theorem Refines.skip (refines : Refines e r) (handle n : Nat) : Agree (e.skip handle n) (r.skip handle n) := by
  refine refines.use handle fun h f there found holds refs => ?_
  cases h with
  | sequential a pos =>
    generalize r.contents (Handle.sequential a pos).file = bytes at holds ⊢
    simp only [holds.size]
    by_cases past : bytes.length < pos
    · rw [if_pos past,if_pos past]
      exact ⟨rfl,refines⟩
    · have place : pos + min n (bytes.length - pos) = min (pos + n) bytes.length := by omega
      rw [if_neg past,if_neg past,place]
      exact ⟨rfl,refines.move there rfl⟩
  | random a => exact ⟨rfl,refines⟩
  | writable a => exact ⟨rfl,refines⟩

theorem Refines.readAt (refines : Refines e r) (handle offset n : Nat) :
    Agree (e.readAt handle offset n) (r.readAt handle offset n) := by
  refine refines.use handle fun h f there found holds refs => ?_
  cases h with
  | sequential a pos => exact ⟨rfl,refines⟩
  | random a =>
    simp only [holds.read,Handle.file]
    cases slice (r.contents a) offset n with
    | ok bytes => exact ⟨rfl,refines⟩
    | error msg => exact ⟨rfl,refines⟩
  | writable a => exact ⟨rfl,refines⟩

theorem Refines.close (refines : Refines e r) (handle : Nat) : Agree (e.close handle) (r.close handle) := by
  rw [Env.close,FileMap.close,FileMap.use,refines.handles]
  cases there : r.handles[handle]? with
  | none => exact ⟨rfl,refines⟩
  | some x => cases x with
    | none => exact ⟨rfl,refines⟩
    | some h =>
      obtain ⟨f,deref,found,-,-⟩ := refines.found (FileMap.references_pos_of_handle there)
      have less : ∀ b, (r.setHandle handle none).references b + (if b = h.file then 1 else 0) = r.references b :=
        fun b => FileMap.references_set there none b
      simp only [Env.unref,deref,Option.map_some]
      refine ⟨rfl,refines.next,congrArg (List.set · handle none) refines.handles,refines.names,refines.injective,
        fun b counted => refines.below b ?_,refines.files.unref found less⟩
      have := less b
      have positive : 0 < (r.setHandle handle none).references b := counted
      omega

theorem Refines.getFileSize (refines : Refines e r) (fname : P) : e.getFileSize fname = r.getFileSize fname := by
  rw [Env.getFileSize,FileMap.getFileSize,refines.names]
  cases found : r.paths fname with
  | none => rfl
  | some a =>
    obtain ⟨f,deref,-,holds,-⟩ := refines.found (FileMap.references_pos_of_path found)
    simp only [Option.map_some,deref,holds.size]

theorem Refines.step [Inhabited B] (refines : Refines e r) {op : Op P B} (regular : op.regular e = true) :
    Agree (e.step op) (r.step op) := by
  cases op with
  | newSequentialFile fname => exact refines.openExisting fname _ fun a => rfl
  | newRandomAccessFile fname => exact refines.openExisting fname _ fun a => rfl
  | newWritableFile fname => exact refines.newWritableFile fname
  | newAppendableFile fname => exact refines.newAppendableFile regular
  | append handle data => exact refines.append handle data
  | read handle n => exact refines.read handle n
  | skip handle n => exact refines.skip handle n
  | readAt handle offset n => exact refines.readAt handle offset n
  | close handle => exact refines.close handle
  | fileExists fname =>
    refine ⟨?_,refines⟩
    simp only [Env.step,FileMap.step,refines.names,Option.isSome_map]
  | getFileSize fname => exact ⟨refines.getFileSize fname,refines⟩
  | removeFile fname => exact refines.removeFile fname
  | renameFile src target => exact refines.renameFile (by simpa [Op.regular] using regular)

theorem Refines.run [Inhabited B] (refines : Refines e r) (ops : List (Op P B)) (regular : e.regular ops = true) :
    (e.run ops).1 = (r.run ops).1 ∧ Refines (e.run ops).2 (r.run ops).2 := by
  induction ops generalizing e r with
  | nil => exact ⟨rfl,refines⟩
  | cons op rest ih =>
    obtain ⟨first,others⟩ := Bool.and_eq_true_iff.mp regular
    obtain ⟨result,next⟩ := refines.step first
    obtain ⟨results,last⟩ := ih next others
    exact ⟨congrArg₂ List.cons result results,last⟩

omit [DecidableEq P] in
theorem empty_refines : Refines (Env.empty : Env P B) FileMap.empty := by
  have zero : ∀ a, (FileMap.empty : FileMap P B).references a = 0 := fun a => if_neg (fun ⟨p,found⟩ => by cases found)
  refine ⟨rfl,rfl,fun p => rfl,fun p q a found => (by cases found),fun a counted => ?_,fun a counted => ?_⟩
  · rw [zero a] at counted
    cases counted
  · rw [zero a] at counted
    cases counted

omit [DecidableEq P] in
/-- How many handles lead to the file. -/
def Env.held (e : Env P B) (file : Nat) : Nat := e.handles.countP fun h => decide (h.map Handle.file = some file)

omit [DecidableEq P] in
/-- A name or a handle leads to the file. -/
def Env.InUse (e : Env P B) (file : Nat) : Prop :=
  (∃ p, e.fileMap p = some (some file)) ∨
    ∃ (handle : Nat) (h : Handle), e.handles[handle]? = some (some h) ∧ h.file = file

omit [DecidableEq P] in
theorem Refines.refs_le (refines : Refines e r) (used : e.InUse a) :
    ∃ f, e.heap a = some f ∧ f.refs ≤ e.held a + 1 := by
  have counted : 0 < r.references a := by
    rcases used with ⟨p,named⟩ | ⟨handle,h,there,rfl⟩
    · rw [refines.names] at named
      obtain ⟨b,path,same⟩ := Option.map_eq_some_iff.mp named
      cases same
      exact FileMap.references_pos_of_path path
    · rw [refines.handles] at there
      exact FileMap.references_pos_of_handle there
  obtain ⟨f,there,-,refs⟩ := refines.files a counted
  have one : r.named a ≤ 1 := by
    rw [FileMap.named]
    split <;> omega
  have held : e.held a = r.held a := by rw [Env.held,FileMap.held,refines.handles]
  refine ⟨f,there,?_⟩
  rw [refs,held,FileMap.references]
  omega

/-- Every sequence of operations in which `NewAppendableFile` is called for files that exist
and no file is renamed to itself gives the results of the reference. The references of a file
are at most one more than the handles on it, so the `int` that counts them does for `2^31 - 2`
handles. -/
theorem env_refines [Inhabited B] (ops : List (Op P B)) (regular : Env.empty.regular ops = true) :
    (Env.empty.run ops).1 = (FileMap.empty.run ops).1 ∧
      ∀ file, (Env.empty.run ops).2.InUse file → ∃ f, (Env.empty.run ops).2.heap file = some f ∧
        f.refs ≤ (Env.empty.run ops).2.held file + 1 := by
  obtain ⟨results,refines⟩ := empty_refines.run ops regular
  exact ⟨results,fun file used => refines.refs_le used⟩

end Steps

/-- A file is written, opened for reading, removed and read on, and another one is renamed
over an existing name. -/
def sampleOps : List (Op Nat Nat) :=
  [.newWritableFile 1,.append 0 [5,6,7],.close 0,.newSequentialFile 1,.read 1 2,.removeFile 1,.fileExists 1,.read 1 9,
    .newWritableFile 2,.append 2 [8],.newWritableFile 3,.renameFile 2 3,.newRandomAccessFile 3,.readAt 4 0 5,.readAt 4 2 5]

theorem env_refines_sample :
    (Env.empty.run sampleOps).1 = [.opened 0,.ok,.ok,.opened 1,.data [5,6],.ok,.exists false,.data [7],.opened 2,.ok,
      .opened 3,.ok,.opened 4,.data [8],.ioError none "Offset greater than file size."] := by
  rw [(env_refines sampleOps (by decide)).1]
  decide

/-- After `NewAppendableFile` of a missing file its size is asked of a null pointer, and a
file that is renamed to itself is gone. -/
theorem env_differs :
    ((Env.empty.run ([.newAppendableFile 1,.getFileSize 1] : List (Op Nat Nat))).1 = [.opened 0,.crash] ∧
      (FileMap.empty.run ([.newAppendableFile 1,.getFileSize 1] : List (Op Nat Nat))).1 = [.opened 0,.size 0]) ∧
    (Env.empty.run ([.newWritableFile 1,.renameFile 1 1,.fileExists 1] : List (Op Nat Nat))).1 =
        [.opened 0,.ok,.exists false] ∧
      (FileMap.empty.run ([.newWritableFile 1,.renameFile 1 1,.fileExists 1] : List (Op Nat Nat))).1 =
        [.opened 0,.ok,.exists true] := by
  decide

end LevelDB.MemEnv
