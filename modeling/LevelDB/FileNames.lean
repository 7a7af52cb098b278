import LevelDB.Recovery
import Mathlib.Data.List.Dedup

/-! The names of the files of a database (`db/filename`) and the check of
`DBImpl::Recover` that no table is missing. A name is what `GetChildren` returns; full
paths have the directory and a slash in front. -/
namespace LevelDB.Names

inductive FileType where
  | logFile | dbLockFile | tableFile | descriptorFile | currentFile | tempFile | infoLogFile
  deriving DecidableEq, Repr

def kMaxUint64 : Nat := 2^64 - 1

/-- The loop of `ConsumeDecimalNumber`; a number that does not fit is refused. -/
def consumeDigits : Nat → List Char → Option (Nat × List Char)
  | value, [] => some (value,[])
  | value, ch :: rest =>
    if ch < '0' ∨ '9' < ch then some (value,ch :: rest)
    else if kMaxUint64 / 10 < value ∨ value = kMaxUint64 / 10 ∧ Nat.digitChar (kMaxUint64 % 10) < ch then none
    else consumeDigits (value * 10 + (ch.toNat - 48)) rest

def consumeDecimalNumber (input : List Char) : Option (Nat × List Char) :=
  match consumeDigits 0 input with
  | some (value,rest) => if rest.length = input.length then none else some (value,rest)
  | none => none

/-- The file type that the rest of a name after its number tells. -/
def suffixType (suffix : List Char) : Option FileType :=
  if suffix = ".log".toList then some .logFile
  else if suffix = ".sst".toList ∨ suffix = ".ldb".toList then some .tableFile
  else if suffix = ".dbtmp".toList then some .tempFile
  else none

def parseFileName (name : List Char) : Option (Nat × FileType) :=
  if name = "CURRENT".toList then some (0,.currentFile)
  else if name = "LOCK".toList then some (0,.dbLockFile)
  else if name = "LOG".toList ∨ name = "LOG.old".toList then some (0,.infoLogFile)
  else if "MANIFEST-".toList.isPrefixOf name then
    (consumeDecimalNumber (name.drop "MANIFEST-".toList.length)).bind fun read =>
      if read.2 = [] then some (read.1,.descriptorFile) else none
  else (consumeDecimalNumber name).bind fun read => (suffixType read.2).map (read.1,·)

/-- `%06llu`. -/
def padded (number : Nat) : List Char :=
  List.replicate (6 - (Nat.toDigits 10 number).length) '0' ++ Nat.toDigits 10 number

/-- `MakeFileName` below the directory. -/
def makeFileName (number : Nat) (suffix : String) : List Char := padded number ++ '.' :: suffix.toList

def logFileName (number : Nat) : List Char := makeFileName number "log"
def tableFileName (number : Nat) : List Char := makeFileName number "ldb"
def sstTableFileName (number : Nat) : List Char := makeFileName number "sst"
def descriptorFileName (number : Nat) : List Char := "MANIFEST-".toList ++ padded number
def tempFileName (number : Nat) : List Char := makeFileName number "dbtmp"

theorem padded_length (number : Nat) : (padded number).length = max 6 (Nat.toDigits 10 number).length := by
  rw [padded,List.length_append,List.length_replicate]
  omega

/-- The line that `SetCurrentFile` writes for a manifest. -/
theorem descriptorFileName_line (number : Nat) : (descriptorFileName number ++ ['\n']).length = lineLength number := by
  have front : (descriptorFileName number).length = 9 + (padded number).length := List.length_append
  have line : (descriptorFileName number ++ ['\n']).length = (descriptorFileName number).length + 1 := List.length_append
  rw [line,front,padded_length,lineLength]

section Parse

theorem digit_range {ch : Char} (digit : ch.isDigit = true) : ¬(ch < '0' ∨ '9' < ch) := by
  simp only [Char.isDigit,Bool.and_eq_true,decide_eq_true_eq] at digit
  exact not_or.mpr ⟨Char.not_lt.mpr digit.1,Char.not_lt.mpr digit.2⟩

/-- The overflow test passes just the steps that stay below 2^64. -/
theorem digit_step {value : Nat} {ch : Char} (digit : ch.isDigit = true) :
    ¬(kMaxUint64 / 10 < value ∨ value = kMaxUint64 / 10 ∧ Nat.digitChar (kMaxUint64 % 10) < ch) ↔
      value * 10 + (ch.toNat - 48) ≤ kMaxUint64 := by
  have last : Nat.digitChar (kMaxUint64 % 10) = '5' := by decide
  have order : '5' < ch ↔ 53 < ch.toNat := Iff.rfl
  have range : 48 ≤ ch.toNat ∧ ch.toNat ≤ 57 := by
    simp only [Char.isDigit,Bool.and_eq_true,decide_eq_true_eq] at digit
    exact digit
  rw [last,order]
  simp only [kMaxUint64]
  omega

theorem le_ofDigitChars (digits : List Char) (value : Nat) : value ≤ Nat.ofDigitChars 10 digits value := by
  rw [Nat.ofDigitChars_eq_ofDigitChars_zero]
  have := Nat.le_mul_of_pos_left value (Nat.pow_pos (n := digits.length) (show 0 < 10 by decide))
  omega

/-- Digits are read up to something else, as long as their value fits. -/
theorem consumeDigits_append (digits rest : List Char) (value : Nat) (all : ∀ ch ∈ digits, ch.isDigit = true)
    (fits : Nat.ofDigitChars 10 digits value ≤ kMaxUint64) :
    consumeDigits value (digits ++ rest) = consumeDigits (Nat.ofDigitChars 10 digits value) rest := by
  induction digits generalizing value with
  | nil => simp
  | cons ch digits ih =>
    have digit := all ch List.mem_cons_self
    rw [Nat.ofDigitChars_cons] at fits ⊢
    have step := (le_ofDigitChars digits _).trans fits
    have zero : '0'.toNat = 48 := rfl
    have next : value * 10 + (ch.toNat - 48) ≤ kMaxUint64 := by
      rw [zero] at step
      omega
    have small := (digit_step digit).mpr next
    rw [List.cons_append,consumeDigits,if_neg (digit_range digit),if_neg small]
    rw [Nat.mul_comm 10 value]
    exact ih _ (fun c hc => all c (List.mem_cons_of_mem ch hc)) (by rwa [Nat.mul_comm 10 value] at fits)

theorem padded_digits (number : Nat) : ∀ ch ∈ padded number, ch.isDigit = true := by
  intro ch member
  rcases List.mem_append.mp member with zeros | digits
  · rw [(List.mem_replicate.mp zeros).2]
    rfl
  · exact Nat.isDigit_of_mem_toDigits (by decide) (by decide) digits

theorem padded_value (number : Nat) : Nat.ofDigitChars 10 (padded number) 0 = number := by
  rw [padded,Nat.ofDigitChars_append,Nat.ofDigitChars_replicate_zero,Nat.mul_zero,Nat.ofDigitChars_ten_toDigits]

theorem padded_ne_nil (number : Nat) : padded number ≠ [] := by
  simp [padded]

/-- Digits are read as a number with anything behind them that is not a digit. -/
theorem consumeDecimalNumber_digits {digits : List Char} (nonempty : digits ≠ [])
    (all : ∀ ch ∈ digits, ch.isDigit = true) (fits : Nat.ofDigitChars 10 digits 0 ≤ kMaxUint64) (rest : List Char)
    (stop : ∀ ch ∈ rest.head?, ch < '0' ∨ '9' < ch) :
    consumeDecimalNumber (digits ++ rest) = some (Nat.ofDigitChars 10 digits 0,rest) := by
  have read : consumeDigits 0 (digits ++ rest) = some (Nat.ofDigitChars 10 digits 0,rest) := by
    rw [consumeDigits_append _ _ _ all fits]
    cases rest with
    | nil => rfl
    | cons ch rest => rw [consumeDigits,if_pos (stop ch rfl)]
  have longer : rest.length ≠ (digits ++ rest).length := by
    have := List.length_pos_iff.mpr nonempty
    rw [List.length_append]
    omega
  rw [consumeDecimalNumber,read]
  exact if_neg longer

theorem consumeDecimalNumber_padded {number : Nat} (fits : number ≤ kMaxUint64) (rest : List Char)
    (stop : ∀ ch ∈ rest.head?, ch < '0' ∨ '9' < ch) :
    consumeDecimalNumber (padded number ++ rest) = some (number,rest) := by
  have read := consumeDecimalNumber_digits (padded_ne_nil number) (padded_digits number)
    (by rw [padded_value]; exact fits) rest stop
  rwa [padded_value] at read

/-- The names that are not a number with a suffix start with a letter. -/
theorem parseFileName_digits {digits : List Char} (nonempty : digits ≠ [])
    (all : ∀ ch ∈ digits, ch.isDigit = true) (rest : List Char) :
    parseFileName (digits ++ rest) = (consumeDecimalNumber (digits ++ rest)).bind fun read =>
      (suffixType read.2).map (read.1,·) := by
  obtain ⟨ch,tail,start⟩ := List.exists_cons_of_ne_nil nonempty
  have digit : ch.isDigit = true := all ch (by simp [start])
  rw [start,List.cons_append]
  have letter : ∀ c : Char, c.isDigit = false → ∀ word : List Char, ch :: (tail ++ rest) ≠ c :: word := by
    intro c notDigit word same
    rw [(List.cons.inj same).1,notDigit] at digit
    cases digit
  have notManifest : "MANIFEST-".toList.isPrefixOf (ch :: (tail ++ rest)) = false := by
    rw [Bool.eq_false_iff]
    intro isPrefix
    obtain ⟨word,same⟩ := List.isPrefixOf_iff_prefix.mp isPrefix
    exact letter 'M' rfl _ same.symm
  have current : ch :: (tail ++ rest) ≠ "CURRENT".toList := letter 'C' rfl _
  have lock : ch :: (tail ++ rest) ≠ "LOCK".toList := letter 'L' rfl _
  have log : ch :: (tail ++ rest) ≠ "LOG".toList := letter 'L' rfl _
  have old : ch :: (tail ++ rest) ≠ "LOG.old".toList := letter 'L' rfl _
  rw [parseFileName,if_neg current,if_neg lock,if_neg (not_or.mpr ⟨log,old⟩),notManifest]
  rfl

theorem parseFileName_table {number : Nat} (fits : number ≤ kMaxUint64) :
    parseFileName (tableFileName number) = some (number,.tableFile) ∧
      parseFileName (sstTableFileName number) = some (number,.tableFile) := by
  constructor
  · rw [tableFileName,makeFileName,parseFileName_digits (padded_ne_nil number) (padded_digits number),
      consumeDecimalNumber_padded fits _ (by simp)]
    rfl
  · rw [sstTableFileName,makeFileName,parseFileName_digits (padded_ne_nil number) (padded_digits number),
      consumeDecimalNumber_padded fits _ (by simp)]
    rfl

end Parse

inductive Status where
  | ok
  | corruption (message detail : List Char)
  | ioError
  deriving DecidableEq, Repr

/-- What `DBImpl::Recover` does to the rest of the database once the files are checked. -/
structure Replayer (σ : Type) where
  recoverLogFile : Nat → Bool → σ → Status × σ
  markFileNumberUsed : Nat → σ → σ
  /-- The last sequence number is raised to that of the logs. -/
  setLastSequence : σ → σ

/-- The logs are replayed up to the first that fails. -/
def Replayer.replay {σ : Type} (r : Replayer σ) : List Nat → σ → Status × σ
  | [], s => (.ok,r.setLastSequence s)
  | n :: rest, s =>
    let read := r.recoverLogFile n rest.isEmpty s
    if read.1 = .ok then r.replay rest (r.markFileNumberUsed n read.2) else read

/-- What a name does to the expected numbers and to the logs. -/
def scanName (minLog prevLog : Nat) (s : List Nat × List Nat) (name : List Char) : List Nat × List Nat :=
  match parseFileName name with
  | some (number,type) => (s.1.filter (· ≠ number),
      if type = .logFile ∧ (minLog ≤ number ∨ number = prevLog) then s.2 ++ [number] else s.2)
  | none => s

/-- `AddLiveFiles`, as the set keeps the numbers. -/
def liveFiles (v : Version K) : List Nat := v.numbers.dedup.insertionSort (· ≤ ·)

/-- `DBImpl::Recover` from `GetChildren` on, for the version that the manifest gave. -/
def recover {σ : Type} (dbname : List Char) (v : Version K) (minLog prevLog : Nat) (names : List (List Char))
    (r : Replayer σ) (s : σ) : Status × σ :=
  let scanned := names.foldl (scanName minLog prevLog) (liveFiles v,[])
  match scanned.1 with
  | first :: rest =>
    (.corruption (Nat.toDigits 10 (rest.length + 1) ++ " missing files; e.g.".toList)
      (dbname ++ '/' :: tableFileName first),s)
  | [] => r.replay (scanned.2.insertionSort (· ≤ ·)) s

section Check
variable {σ : Type} {v : Version K} {names : List (List Char)}

/-- The name of some file has the number. -/
def Numbered (names : List (List Char)) (number : Nat) : Prop :=
  ∃ name ∈ names, (parseFileName name).map (·.1) = some number

instance (names : List (List Char)) (number : Nat) : Decidable (Numbered names number) := by
  unfold Numbered; infer_instance

theorem numbered_cons {name : List Char} {number : Nat} :
    Numbered (name :: names) number ↔ (parseFileName name).map (·.1) = some number ∨ Numbered names number := by
  simp [Numbered]

theorem scanName_expected (minLog prevLog : Nat) (s : List Nat × List Nat) (name : List Char) (number : Nat) :
    number ∈ (scanName minLog prevLog s name).1 ↔
      number ∈ s.1 ∧ (parseFileName name).map (·.1) ≠ some number := by
  rw [scanName]
  cases parsed : parseFileName name with
  | none => simp only [Option.map_none,ne_eq,reduceCtorEq,not_false_eq_true,and_true]
  | some file =>
    simp only [List.mem_filter,decide_eq_true_eq,Option.map_some,ne_eq,Option.some.injEq]
    exact and_congr_right fun _ => not_congr eq_comm

/-- A number stays expected as long as no name has it, whatever the type of the file. -/
theorem mem_expected (minLog prevLog : Nat) (s : List Nat × List Nat) (number : Nat) :
    number ∈ (names.foldl (scanName minLog prevLog) s).1 ↔ number ∈ s.1 ∧ ¬Numbered names number := by
  induction names generalizing s with
  | nil => simp [Numbered]
  | cons name names ih =>
    rw [List.foldl_cons,ih,scanName_expected,numbered_cons,not_or,and_assoc]

theorem mem_liveFiles {number : Nat} : number ∈ liveFiles v ↔ number ∈ v.numbers := by
  rw [liveFiles,(List.perm_insertionSort _ _).mem_iff,List.mem_dedup]

/-- The check fails if and only if some number of the version is the number of no file. -/
theorem recover_cases (dbname : List Char) (minLog prevLog : Nat) (r : Replayer σ) (s : σ) :
    (∃ n ∈ v.numbers, ¬Numbered names n) ∧ (∃ message, ∃ n ∈ v.numbers, ¬Numbered names n ∧
      recover dbname v minLog prevLog names r s = (.corruption message (dbname ++ '/' :: tableFileName n),s)) ∨
    (∀ n ∈ v.numbers, Numbered names n) ∧ recover dbname v minLog prevLog names r s =
      r.replay ((names.foldl (scanName minLog prevLog) (liveFiles v,[])).2.insertionSort (· ≤ ·)) s := by
  have expected : ∀ n, n ∈ (names.foldl (scanName minLog prevLog) (liveFiles v,[])).1 ↔
      n ∈ v.numbers ∧ ¬Numbered names n := by
    intro n
    rw [mem_expected,mem_liveFiles]
  cases scanned : (names.foldl (scanName minLog prevLog) (liveFiles v,[])).1 with
  | nil =>
    right
    simp only [scanned,List.not_mem_nil,false_iff,not_and,not_not] at expected
    exact ⟨expected,by simp only [recover,scanned]⟩
  | cons first rest =>
    left
    obtain ⟨member,missing⟩ := (expected first).mp (by rw [scanned]; exact List.mem_cons_self)
    refine ⟨⟨first,member,missing⟩,
      Nat.toDigits 10 (rest.length + 1) ++ " missing files; e.g.".toList,first,member,missing,?_⟩
    simp only [recover,scanned]

def Present (names : List (List Char)) (number : Nat) : Prop :=
  tableFileName number ∈ names ∨ sstTableFileName number ∈ names

/-- A missing table is reported before any log is replayed, and only a missing one. -/
def DetectsMissing (dbname : List Char) (v : Version K) (names : List (List Char)) : Prop :=
  ∀ (σ : Type) (minLog prevLog : Nat) (r : Replayer σ) (s : σ),
    ((∃ n ∈ v.numbers, ¬Present names n) → ∃ message detail,
      recover dbname v minLog prevLog names r s = (.corruption message detail,s)) ∧
    ((∀ n ∈ v.numbers, Present names n) → ∃ logs, recover dbname v minLog prevLog names r s = r.replay logs s)

theorem Present.numbered {number : Nat} (fits : number ≤ kMaxUint64) (present : Present names number) :
    Numbered names number := by
  obtain ⟨ldb,sst⟩ := parseFileName_table fits
  rcases present with member | member
  · exact ⟨_,member,by rw [ldb]; rfl⟩
  · exact ⟨_,member,by rw [sst]; rfl⟩

/-- Missing tables are detected unless the number of each of them is the number of
another file. -/
theorem missing_detected (dbname : List Char) (fits : ∀ n ∈ v.numbers, n ≤ kMaxUint64) :
    DetectsMissing dbname v names ↔
      (∀ n ∈ v.numbers, Present names n) ∨ ∃ n ∈ v.numbers, ¬Numbered names n := by
  constructor
  · intro detects
    by_contra neither
    simp only [not_or,not_forall,not_exists,not_and,not_not] at neither
    obtain ⟨⟨n,member,missing⟩,mated⟩ := neither
    let idle : Replayer Unit := ⟨fun _ _ s => (.ok,s),fun _ s => s,fun s => s⟩
    have idles : ∀ logs, idle.replay logs () = (.ok,()) := by
      intro logs
      induction logs with
      | nil => rfl
      | cons log logs ih => exact ih
    obtain ⟨message,detail,reported⟩ := (detects Unit 0 0 idle ()).1 ⟨n,member,missing⟩
    rcases @recover_cases _ _ v names dbname 0 0 idle () with ⟨⟨m,hm,free⟩,-⟩ | ⟨-,result⟩
    · exact free (mated m hm)
    · rw [result,idles] at reported
      cases reported
  · intro condition σ minLog prevLog r s
    rcases @recover_cases _ _ v names dbname minLog prevLog r s with
      ⟨⟨m,hm,free⟩,message,n,-,-,result⟩ | ⟨all,result⟩
    · refine ⟨fun _ => ⟨message,_,result⟩,fun present => ?_⟩
      exact absurd ((present m hm).numbered (fits m hm)) free
    · refine ⟨?_,fun _ => ⟨_,result⟩⟩
      rintro ⟨n,hn,missing⟩
      rcases condition with present | ⟨m,hm,free⟩
      · exact absurd (present n hn) missing
      · exact absurd (all m hm) free

end Check

section Small

/-- One table, number 5, at level 0. -/
def fiveVersion : Version Nat := ⟨fun level =>
  if level = 0 then [⟨5,3,⟨7,2,.value⟩,⟨7,1,.value⟩⟩] else []⟩

/-- The log that a replay which was interrupted has left with the number of the table. -/
def fiveLog : List (List Char) :=
  ["CURRENT".toList,"LOCK".toList,descriptorFileName 4,logFileName 5]

/-- With the log gone too, the table is missed. -/
theorem missing_detected_five : DetectsMissing ['d'] fiveVersion ["CURRENT".toList,descriptorFileName 4] := by
  refine (missing_detected ['d'] ?_).mpr (.inr ⟨5,by decide,by decide⟩)
  decide

/-- The log passes for the table. -/
theorem missing_undetected : ¬DetectsMissing ['d'] fiveVersion fiveLog := by
  intro detects
  obtain ⟨message,detail,reported⟩ := (detects Unit 0 0 ⟨fun _ _ s => (.ok,s),fun _ s => s,fun s => s⟩ ()).1
    ⟨5,by decide,by unfold Present; decide⟩
  have passes : recover ['d'] fiveVersion 0 0 fiveLog
      (⟨fun _ _ s => (.ok,s),fun _ s => s,fun s => s⟩ : Replayer Unit) () = (.ok,()) := by decide
  rw [passes] at reported
  cases reported

end Small

end LevelDB.Names
