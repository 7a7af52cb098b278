import LevelDB.FileNames

/-! What `ParseFileName` accepts, as a grammar, and that it reads back every name that the
engine makes. A byte of a name is the character of its code; the theorems hold for all
lists of characters. -/
namespace LevelDB.Names

/-- Decimal digits, leading zeros among them, whose value has 64 bits. -/
structure IsDecimal (digits : List Char) (number : Nat) : Prop where
  nonempty : digits ≠ []
  all : ∀ ch ∈ digits, ch.isDigit = true
  value : number = Nat.ofDigitChars 10 digits 0
  fits : number < 2^64

inductive FileName : List Char → Nat → FileType → Prop
  | current : FileName "CURRENT".toList 0 .currentFile
  | lock : FileName "LOCK".toList 0 .dbLockFile
  | infoLog : FileName "LOG".toList 0 .infoLogFile
  | oldInfoLog : FileName "LOG.old".toList 0 .infoLogFile
  | descriptor {digits : List Char} {number : Nat} (decimal : IsDecimal digits number) :
    FileName ("MANIFEST-".toList ++ digits) number .descriptorFile
  | log {digits : List Char} {number : Nat} (decimal : IsDecimal digits number) :
    FileName (digits ++ ".log".toList) number .logFile
  | sst {digits : List Char} {number : Nat} (decimal : IsDecimal digits number) :
    FileName (digits ++ ".sst".toList) number .tableFile
  | ldb {digits : List Char} {number : Nat} (decimal : IsDecimal digits number) :
    FileName (digits ++ ".ldb".toList) number .tableFile
  | temp {digits : List Char} {number : Nat} (decimal : IsDecimal digits number) :
    FileName (digits ++ ".dbtmp".toList) number .tempFile

section Accepts

theorem isDigit_of_range {ch : Char} (inside : ¬(ch < '0' ∨ '9' < ch)) : ch.isDigit = true := by
  obtain ⟨low,high⟩ := not_or.mp inside
  simp only [Char.isDigit,Bool.and_eq_true,decide_eq_true_eq]
  exact ⟨Char.not_lt.mp low,Char.not_lt.mp high⟩

theorem consumeDigits_some {input rest : List Char} {value number : Nat} (small : value ≤ kMaxUint64)
    (read : consumeDigits value input = some (number,rest)) :
    ∃ digits, input = digits ++ rest ∧ (∀ ch ∈ digits, ch.isDigit = true) ∧
      number = Nat.ofDigitChars 10 digits value ∧ number ≤ kMaxUint64 := by
  induction input generalizing value with
  | nil =>
    cases read
    exact ⟨[],rfl,by simp,rfl,small⟩
  | cons ch input ih =>
    rw [consumeDigits] at read
    split at read
    · cases read
      exact ⟨[],rfl,by simp,rfl,small⟩
    · rename_i inside
      have digit := isDigit_of_range inside
      split at read
      · cases read
      · rename_i room
        obtain ⟨digits,rfl,all,same,fits⟩ := ih ((digit_step digit).mp room) read
        refine ⟨ch :: digits,rfl,?_,?_,fits⟩
        · intro c member
          rcases List.mem_cons.mp member with rfl | later
          · exact digit
          · exact all c later
        · rw [same,Nat.ofDigitChars_cons,Nat.mul_comm 10 value]
          rfl

theorem consumeDecimalNumber_some {input rest : List Char} {number : Nat}
    (read : consumeDecimalNumber input = some (number,rest)) :
    ∃ digits, input = digits ++ rest ∧ IsDecimal digits number := by
  rw [consumeDecimalNumber] at read
  split at read
  · rename_i value left found
    split at read
    · cases read
    · rename_i shorter
      cases read
      obtain ⟨digits,rfl,all,value,fits⟩ := consumeDigits_some (Nat.zero_le _) found
      refine ⟨digits,rfl,?_,all,value,?_⟩
      · rintro rfl
        exact shorter rfl
      · exact Nat.lt_of_le_pred (by decide) fits
  · cases read

theorem IsDecimal.consumed {digits : List Char} {number : Nat} (decimal : IsDecimal digits number) (rest : List Char)
    (stop : ∀ ch ∈ rest.head?, ch < '0' ∨ '9' < ch) :
    consumeDecimalNumber (digits ++ rest) = some (number,rest) := by
  have fits : Nat.ofDigitChars 10 digits 0 ≤ kMaxUint64 := by
    rw [← decimal.value]
    exact Nat.le_pred_of_lt decimal.fits
  rw [decimal.value]
  exact consumeDecimalNumber_digits decimal.nonempty decimal.all fits rest stop

theorem IsDecimal.parsed {digits : List Char} {number : Nat} (decimal : IsDecimal digits number)
    (suffix : List Char) (stop : ∀ ch ∈ suffix.head?, ch < '0' ∨ '9' < ch) :
    parseFileName (digits ++ suffix) = (suffixType suffix).map (number,·) := by
  rw [parseFileName_digits decimal.nonempty decimal.all,decimal.consumed suffix stop,Option.bind_some]

theorem dot_stops {suffix : List Char} (dot : suffix.head? = some '.') : ∀ ch ∈ suffix.head?, ch < '0' ∨ '9' < ch := by
  intro ch first
  cases dot.symm.trans first
  exact .inl (by decide)

theorem parseFileName_manifest (tail : List Char) : parseFileName ("MANIFEST-".toList ++ tail) =
    (consumeDecimalNumber tail).bind fun read => if read.2 = [] then some (read.1,.descriptorFile) else none := by
  have word : "MANIFEST-".toList.isPrefixOf ("MANIFEST-".toList ++ tail) = true :=
    List.isPrefixOf_iff_prefix.mpr (List.prefix_append _ _)
  have current : "MANIFEST-".toList ++ tail ≠ "CURRENT".toList := by simp
  have lock : "MANIFEST-".toList ++ tail ≠ "LOCK".toList := by simp
  have log : "MANIFEST-".toList ++ tail ≠ "LOG".toList := by simp
  have old : "MANIFEST-".toList ++ tail ≠ "LOG.old".toList := by simp
  rw [parseFileName,if_neg current,if_neg lock,if_neg (not_or.mpr ⟨log,old⟩),if_pos word,List.drop_left]

theorem parseFileName_of_form {name : List Char} {number : Nat} {type : FileType} (form : FileName name number type) :
    parseFileName name = some (number,type) := by
  cases form with
  | current => rfl
  | lock => rfl
  | infoLog => rfl
  | oldInfoLog => rfl
  | descriptor decimal =>
    have read := decimal.consumed [] (by simp)
    rw [List.append_nil] at read
    rw [parseFileName_manifest,read]
    rfl
  | log decimal => exact decimal.parsed _ (dot_stops rfl)
  | sst decimal => exact decimal.parsed _ (dot_stops rfl)
  | ldb decimal => exact decimal.parsed _ (dot_stops rfl)
  | temp decimal => exact decimal.parsed _ (dot_stops rfl)

theorem form_of_suffix {digits suffix : List Char} {number : Nat} {type : FileType} (decimal : IsDecimal digits number)
    (told : suffixType suffix = some type) : FileName (digits ++ suffix) number type := by
  rw [suffixType] at told
  split at told
  · rename_i log
    cases told
    exact log ▸ .log decimal
  · split at told
    · rename_i table
      cases told
      rcases table with rfl | rfl
      · exact .sst decimal
      · exact .ldb decimal
    · split at told
      · rename_i temp
        cases told
        exact temp ▸ .temp decimal
      · cases told

theorem form_of_parseFileName {name : List Char} {number : Nat} {type : FileType}
    (parsed : parseFileName name = some (number,type)) : FileName name number type := by
  rw [parseFileName] at parsed
  split at parsed
  · rename_i current
    cases parsed
    exact current ▸ .current
  split at parsed
  · rename_i lock
    cases parsed
    exact lock ▸ .lock
  split at parsed
  · rename_i log
    cases parsed
    rcases log with rfl | rfl
    · exact .infoLog
    · exact .oldInfoLog
  split at parsed
  · rename_i word
    obtain ⟨tail,rfl⟩ := List.isPrefixOf_iff_prefix.mp word
    rw [List.drop_left] at parsed
    obtain ⟨⟨n,rest⟩,read,whole⟩ := Option.bind_eq_some_iff.mp parsed
    obtain ⟨digits,rfl,decimal⟩ := consumeDecimalNumber_some read
    split at whole
    · rename_i none
      cases whole
      cases none
      rw [List.append_nil]
      exact .descriptor decimal
    · cases whole
  · obtain ⟨⟨n,suffix⟩,read,told⟩ := Option.bind_eq_some_iff.mp parsed
    obtain ⟨digits,rfl,decimal⟩ := consumeDecimalNumber_some read
    obtain ⟨type',told,same⟩ := Option.map_eq_some_iff.mp told
    cases same
    exact form_of_suffix decimal told

end Accepts

section Engine

theorem isDecimal_padded {number : Nat} (fits : number < 2^64) : IsDecimal (padded number) number :=
  ⟨padded_ne_nil number,padded_digits number,(padded_value number).symm,fits⟩

/-- The names of the engine's files below the directory; `DBImpl::NewDB` and the counter of
`VersionSet` give numbers from 1 on. -/
inductive Made : FileType → Nat → List Char → Prop
  | current : Made .currentFile 0 "CURRENT".toList
  | lock : Made .dbLockFile 0 "LOCK".toList
  | infoLog : Made .infoLogFile 0 "LOG".toList
  | oldInfoLog : Made .infoLogFile 0 "LOG.old".toList
  | log {number : Nat} (positive : 1 ≤ number) (fits : number < 2^64) : Made .logFile number (logFileName number)
  | table {number : Nat} (positive : 1 ≤ number) (fits : number < 2^64) : Made .tableFile number (tableFileName number)
  | sstTable {number : Nat} (positive : 1 ≤ number) (fits : number < 2^64) :
    Made .tableFile number (sstTableFileName number)
  | descriptor {number : Nat} (positive : 1 ≤ number) (fits : number < 2^64) :
    Made .descriptorFile number (descriptorFileName number)
  | temp {number : Nat} (positive : 1 ≤ number) (fits : number < 2^64) : Made .tempFile number (tempFileName number)

theorem Made.fileName {type : FileType} {number : Nat} {name : List Char} (made : Made type number name) :
    FileName name number type := by
  cases made with
  | current => exact .current
  | lock => exact .lock
  | infoLog => exact .infoLog
  | oldInfoLog => exact .oldInfoLog
  | log _ fits => exact .log (isDecimal_padded fits)
  | table _ fits => exact .ldb (isDecimal_padded fits)
  | sstTable _ fits => exact .sst (isDecimal_padded fits)
  | descriptor _ fits => exact .descriptor (isDecimal_padded fits)
  | temp _ fits => exact .temp (isDecimal_padded fits)

/-- Just the names of the grammar are accepted, with their numbers and types; the names that
the engine makes are read back, and files that differ in type or number differ in name. -/
theorem file_name_grammar :
    (∀ name number type, parseFileName name = some (number,type) ↔ FileName name number type) ∧
      (∀ number, 1 ≤ number → number < 2^64 →
        parseFileName (logFileName number) = some (number,.logFile) ∧
        parseFileName (tableFileName number) = some (number,.tableFile) ∧
        parseFileName (sstTableFileName number) = some (number,.tableFile) ∧
        parseFileName (descriptorFileName number) = some (number,.descriptorFile) ∧
        parseFileName (tempFileName number) = some (number,.tempFile)) ∧
      ∀ type number type' number' name, Made type number name → Made type' number' name →
        (type,number) = (type',number') := by
  refine ⟨fun name number type => ⟨form_of_parseFileName,parseFileName_of_form⟩,?_,?_⟩
  · intro number positive fits
    exact ⟨parseFileName_of_form (Made.log positive fits).fileName,
      parseFileName_of_form (Made.table positive fits).fileName,
      parseFileName_of_form (Made.sstTable positive fits).fileName,
      parseFileName_of_form (Made.descriptor positive fits).fileName,
      parseFileName_of_form (Made.temp positive fits).fileName⟩
  · intro type number type' number' name made made'
    have read := parseFileName_of_form made.fileName
    rw [parseFileName_of_form made'.fileName,Option.some.injEq,Prod.mk.injEq] at read
    rw [read.1,read.2]

/-- The last number with 64 bits is read, the one after it refused. -/
example : parseFileName "018446744073709551615.log".toList = some (2^64 - 1,.logFile) ∧
    parseFileName "18446744073709551616.log".toList = none := by decide

end Engine

end LevelDB.Names
