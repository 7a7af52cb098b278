import LevelDB.FilterBlock
import LevelDB.BlockCursor

/-! What a filter block covers. The builder keeps the keys of the data blocks in groups, one
for each 2 KiB of the file; the reader finds for every block the filter of its group. -/
namespace LevelDB.Sstable

namespace FilterBlockBuilder
variable {policy : FilterPolicy} {f : FilterBlockBuilder} {groups : List (List Bytes)}

/-- The filter of a group; without keys it is empty. -/
def filterOf (policy : FilterPolicy) (keys : List Bytes) : Bytes :=
  if keys = [] then [] else policy.createFilter (keys.take (castInt keys.length))

/-- Where the filter of the `i`th group starts. -/
def filterStart (policy : FilterPolicy) (groups : List (List Bytes)) (i : Nat) : Nat :=
  ((groups.take i).flatMap (filterOf policy)).length

/-- The filters of these groups are done. -/
structure Grouped (policy : FilterPolicy) (f : FilterBlockBuilder) (groups : List (List Bytes)) : Prop where
  result : f.result = groups.flatMap (filterOf policy)
  offsets : f.filterOffsets = (List.range groups.length).map fun i => filterStart policy groups i % 2^32

theorem Grouped.length (grouped : Grouped policy f groups) : f.filterOffsets.length = groups.length := by
  rw [grouped.offsets,List.length_map,List.length_range]

theorem filterStart_snoc {i : Nat} (inside : i ≤ groups.length) (g : List Bytes) :
    filterStart policy (groups ++ [g]) i = filterStart policy groups i := by
  rw [filterStart,filterStart,List.take_append_of_le_length inside]

theorem generateFilter_keys (policy : FilterPolicy) (f : FilterBlockBuilder) : (f.generateFilter policy).keys = [] := by
  rw [generateFilter]
  by_cases none : f.keys = []
  · simp [none]
  · simp [none]

theorem Grouped.generateFilter (grouped : Grouped policy f groups) :
    Grouped policy (f.generateFilter policy) (groups ++ [f.keys]) := by
  have result : (f.generateFilter policy).result = f.result ++ filterOf policy f.keys := by
    rw [FilterBlockBuilder.generateFilter,filterOf]
    by_cases none : f.keys = []
    · simp [none]
    · simp [none]
  have offsets : (f.generateFilter policy).filterOffsets = f.filterOffsets ++ [f.result.length % 2^32] := by
    rw [FilterBlockBuilder.generateFilter]
    by_cases none : f.keys = []
    · simp [none]
    · simp [none]
  constructor
  · rw [result,grouped.result,List.flatMap_append,List.flatMap_singleton]
  · have last : filterStart policy (groups ++ [f.keys]) groups.length = f.result.length := by
      rw [filterStart_snoc (le_refl _),filterStart,List.take_length,grouped.result]
    rw [offsets,grouped.offsets,List.length_append,List.length_singleton,List.range_succ,List.map_append,List.map_singleton,last]
    congr 1
    refine List.map_congr_left fun i member => ?_
    rw [filterStart_snoc (le_of_lt (List.mem_range.mp member))]

/-- The keys of every block are in the group of its offset, the last group being the keys at
hand. Where keys are counted, no group has more than an `int` can count. -/
def Covers (policy : FilterPolicy) (counted : Prop) (f : FilterBlockBuilder) (blocks : List (Nat × List Bytes)) (next : Nat)
    (cur : List Bytes) : Prop :=
  ∃ groups, Grouped policy f groups ∧ groups.length = next / kFilterBase ∧ (counted → ∀ g ∈ groups, g.length < 2^31) ∧
    (∀ block ∈ blocks, ∀ k ∈ block.2, ∃ g, (groups ++ [f.keys])[block.1 / kFilterBase]? = some g ∧ k ∈ g) ∧ ∀ k ∈ cur, k ∈ f.keys

theorem Grouped.generateUntil (grouped : Grouped policy f groups) (filterIndex fuel : Nat) (enough : filterIndex - groups.length ≤ fuel)
    (bound : groups.length ≤ filterIndex) : ∃ more, Grouped policy (generateUntil policy filterIndex fuel f) (groups ++ more) ∧
      (groups ++ more).length = filterIndex ∧ (∀ g ∈ more, g = f.keys ∨ g = []) ∧
      ∃ rest, groups ++ more ++ [(FilterBlockBuilder.generateUntil policy filterIndex fuel f).keys] = groups ++ f.keys :: rest := by
  induction fuel generalizing f groups with
  | zero =>
    exact ⟨[],by simpa [FilterBlockBuilder.generateUntil] using grouped,by simp; omega,by simp,[],by simp [FilterBlockBuilder.generateUntil]⟩
  | succ fuel ih =>
    rw [FilterBlockBuilder.generateUntil,grouped.length]
    by_cases low : groups.length < filterIndex
    · rw [if_pos low]
      obtain ⟨more,done,length,only,rest,same⟩ := ih grouped.generateFilter (by simp; omega) (by simp; omega)
      refine ⟨f.keys :: more,?_,?_,?_,?_⟩
      · simpa using done
      · simpa using length
      · intro g member
        rcases List.mem_cons.mp member with rfl | later
        · exact .inl rfl
        · rw [generateFilter_keys] at only
          exact .inr (or_self_iff.mp (only g later))
      · refine ⟨more ++ [(FilterBlockBuilder.generateUntil policy filterIndex fuel (f.generateFilter policy)).keys],?_⟩
        simp
    · rw [if_neg low]
      exact ⟨[],by simpa using grouped,by simp; omega,by simp,[],by simp⟩

theorem new_covers (policy : FilterPolicy) (counted : Prop) : Covers policy counted (FilterBlockBuilder.new.startBlock policy 0) [] 0 [] := by
  refine ⟨[],⟨rfl,rfl⟩,rfl,?_,?_,?_⟩
  · intro _ g member
    cases member
  · intro block member
    cases member
  · intro k member
    cases member

variable {counted : Prop} {blocks : List (Nat × List Bytes)} {next : Nat} {cur : List Bytes}

theorem Covers.addKey (covers : Covers policy counted f blocks next cur) (key : Bytes) :
    Covers policy counted (f.addKey key) blocks next (cur ++ [key]) := by
  obtain ⟨groups,grouped,length,few,placed,here⟩ := covers
  refine ⟨groups,⟨grouped.result,grouped.offsets⟩,length,few,?_,?_⟩
  · intro block member k inside
    obtain ⟨g,there,hit⟩ := placed block member k inside
    rcases getElem_snoc there with old | ⟨last,rfl⟩
    · refine ⟨g,?_,hit⟩
      rw [List.getElem?_append_left (List.getElem?_eq_some_iff.mp old).1]
      exact old
    · refine ⟨f.keys ++ [key],?_,List.mem_append_left _ hit⟩
      rw [last,List.getElem?_concat_length]
      rfl
  · intro k member
    rcases List.mem_append.mp member with old | new
    · exact List.mem_append_left _ (here k old)
    · exact List.mem_append_right _ new

/-- The next block starts behind the one at hand. -/
theorem Covers.startBlock (covers : Covers policy counted f blocks next cur) {next' : Nat} (order : next ≤ next')
    (count : counted → f.keys.length < 2^31) : Covers policy counted (f.startBlock policy next') (blocks ++ [(next,cur)]) next' [] := by
  obtain ⟨groups,grouped,length,few,placed,here⟩ := covers
  have bound : groups.length ≤ next' / kFilterBase := by
    rw [length]
    exact Nat.div_le_div_right order
  obtain ⟨more,done,length',only,rest,same⟩ := grouped.generateUntil (next' / kFilterBase) (next' / kFilterBase) (Nat.sub_le _ _) bound
  refine ⟨groups ++ more,done,length',?_,?_,?_⟩
  · intro yes g member
    rcases List.mem_append.mp member with old | new
    · exact few yes g old
    · rcases only g new with rfl | rfl
      · exact count yes
      · decide
  · have kept : ∀ (i : Nat) (g : List Bytes), (groups ++ [f.keys])[i]? = some g →
        (groups ++ more ++ [(f.startBlock policy next').keys])[i]? = some g := by
      intro i g there
      rw [FilterBlockBuilder.startBlock,same]
      rw [show groups ++ f.keys :: rest = (groups ++ [f.keys]) ++ rest by simp,
        List.getElem?_append_left (List.getElem?_eq_some_iff.mp there).1]
      exact there
    intro block member k inside
    rcases List.mem_append.mp member with old | new
    · obtain ⟨g,there,hit⟩ := placed block old k inside
      exact ⟨g,kept _ g there,hit⟩
    · obtain rfl := List.mem_singleton.mp new
      refine ⟨f.keys,kept _ _ ?_,here k inside⟩
      rw [← length,List.getElem?_concat_length]
  · intro k member
    cases member

theorem filterStart_le (policy : FilterPolicy) (groups : List (List Bytes)) (i : Nat) :
    filterStart policy groups i ≤ (groups.flatMap (filterOf policy)).length := by
  rw [filterStart]
  conv_rhs => rw [← List.take_append_drop i groups,List.flatMap_append,List.length_append]
  exact Nat.le_add_right _ _

theorem encode_eq (f : FilterBlockBuilder) : f.encode =
    f.result ++ ((f.filterOffsets ++ [f.result.length]).flatMap putFixed32 ++ [UInt8.ofNat kFilterBaseLg]) := by
  simp [encode]

theorem Grouped.length_encode (grouped : Grouped policy f groups) : f.encode.length = f.result.length + 4 * groups.length + 5 := by
  rw [encode]
  simp only [List.length_append,BlockLayout.length_flatMap_putFixed32,length_putFixed32,grouped.length,List.length_singleton]

/-- Starting a block keeps the keys at hand or hands them all on. -/
theorem generateUntil_keys (policy : FilterPolicy) (f : FilterBlockBuilder) (filterIndex fuel : Nat) :
    (generateUntil policy filterIndex fuel f).keys = f.keys ∨ (generateUntil policy filterIndex fuel f).keys = [] := by
  induction fuel generalizing f with
  | zero => exact .inl rfl
  | succ fuel ih =>
    rw [generateUntil]
    split
    · rcases ih (f.generateFilter policy) with same | none
      · rw [same]
        exact .inr (generateFilter_keys policy f)
      · exact .inr none
    · exact .inl rfl

/-- The offsets as the reader finds them: each filter ends where the next one starts. -/
theorem Grouped.points (grouped : Grouped policy f groups) (small : f.encode.length < 2^32) {i : Nat} (inside : i ≤ groups.length) :
    (f.filterOffsets ++ [f.result.length])[i]? = some (filterStart policy groups i) := by
  have total : f.result.length = filterStart policy groups groups.length := by rw [filterStart,List.take_length,grouped.result]
  rcases Nat.lt_or_eq_of_le inside with low | rfl
  · have bound := filterStart_le policy groups i
    rw [← grouped.result] at bound
    have length := grouped.length_encode
    rw [List.getElem?_append_left (by rw [grouped.length]; exact low),grouped.offsets,List.getElem?_map,List.getElem?_range low,
      Option.map_some,Nat.mod_eq_of_lt (by omega)]
  · rw [← grouped.length,List.getElem?_concat_length,total,grouped.length]

/-- What the reader takes from the end of the block. -/
theorem Grouped.reader (grouped : Grouped policy f groups) (small : f.encode.length < 2^32) :
    FilterBlockReader.new f.encode = ⟨f.encode,f.result.length,groups.length,kFilterBaseLg⟩ := by
  have total := grouped.length_encode
  have lastByte : f.encode.getD (f.encode.length - 1) 0 = UInt8.ofNat kFilterBaseLg := by
    rw [encode,List.length_append,List.length_singleton,Nat.add_sub_cancel,List.getD_eq_getElem?_getD,List.getElem?_concat_length]
    rfl
  have front : (f.result ++ f.filterOffsets.flatMap putFixed32).length = f.encode.length - 5 := by
    rw [total,List.length_append,BlockLayout.length_flatMap_putFixed32,grouped.length]
    omega
  have lastWord : (decodeFixed32 (f.encode.drop (f.encode.length - 5))).toNat = f.result.length := by
    rw [← front,encode,List.append_assoc _ (putFixed32 _),List.drop_left]
    exact decodeFixed32_putFixed32 (by omega) _
  simp only [FilterBlockReader.new,lastByte,lastWord]
  rw [if_neg (by omega),if_neg (by omega)]
  congr 1
  omega

theorem Grouped.point (grouped : Grouped policy f groups) (small : f.encode.length < 2^32) {i : Nat} (inside : i ≤ groups.length) :
    (decodeFixed32 (f.encode.drop (f.result.length + i * 4))).toNat = filterStart policy groups i := by
  have total := grouped.length_encode
  have bound := filterStart_le policy groups i
  rw [← grouped.result] at bound
  rw [encode_eq,← List.drop_drop,List.drop_left,BlockLayout.drop_flatMap_putFixed32 (grouped.points small inside)]
  exact decodeFixed32_putFixed32 (by omega) _

/-- For every block the reader asks the filter of its group. -/
theorem keyMayMatch_encode (grouped : Grouped policy f groups) (small : f.encode.length < 2^32) {blockOffset : Nat} {g : List Bytes}
    (there : groups[blockOffset / kFilterBase]? = some g) (key : Bytes) :
    (FilterBlockReader.new f.encode).keyMayMatch policy blockOffset key = policy.keyMayMatch key (filterOf policy g) := by
  obtain ⟨inside,same⟩ := List.getElem?_eq_some_iff.mp there
  have shift : blockOffset >>> kFilterBaseLg = blockOffset / kFilterBase := Nat.shiftRight_eq_div_pow _ _
  have split : groups.flatMap (filterOf policy) = (groups.take (blockOffset / kFilterBase)).flatMap (filterOf policy) ++
      (filterOf policy g ++ (groups.drop (blockOffset / kFilterBase + 1)).flatMap (filterOf policy)) := by
    rw [← List.flatMap_cons,← same,← List.drop_eq_getElem_cons inside,← List.flatMap_append,List.take_append_drop]
  have next : filterStart policy groups (blockOffset / kFilterBase + 1) =
      filterStart policy groups (blockOffset / kFilterBase) + (filterOf policy g).length := by
    simp [filterStart,List.take_add_one,there]
  have bound := filterStart_le policy groups (blockOffset / kFilterBase + 1)
  rw [← grouped.result] at bound
  simp only [FilterBlockReader.keyMayMatch,grouped.reader small,shift]
  rw [if_pos inside,grouped.point small (le_of_lt inside),Nat.add_assoc,← Nat.succ_mul,
    grouped.point small (i := blockOffset / kFilterBase + 1) inside,
    if_pos ⟨by omega,bound⟩,next,Nat.add_sub_cancel_left]
  congr 1
  rw [encode_eq,grouped.result,split,filterStart,List.append_assoc,List.drop_left,List.append_assoc,List.take_left]

/-- A policy never rejects a key that it was given. -/
def Honest (policy : FilterPolicy) : Prop := ∀ keys, ∀ k ∈ keys, policy.keyMayMatch k (policy.createFilter keys) = true

theorem keyMayMatch_filterOf (honest : Honest policy) {g : List Bytes} {k : Bytes} (member : k ∈ g) (few : g.length < 2^31) :
    policy.keyMayMatch k (filterOf policy g) = true := by
  have some_ : g ≠ [] := List.ne_nil_of_mem member
  have all : castInt g.length = g.length := by
    rw [castInt,Nat.mod_eq_of_lt (by omega),if_pos few]
  rw [filterOf,if_neg some_,all,List.take_length]
  exact honest g k member

/-- The keys of every block pass the finished filter at the offset of the block. -/
theorem Covers.keyMayMatch (covers : Covers policy True f blocks next cur) (honest : Honest policy) (count : f.keys.length < 2^31)
    (small : (f.finish policy).length < 2^32) {block : Nat × List Bytes} (member : block ∈ blocks) {k : Bytes} (inside : k ∈ block.2) :
    (FilterBlockReader.new (f.finish policy)).keyMayMatch policy block.1 k = true := by
  obtain ⟨groups,grouped,length,few,placed,here⟩ := covers
  obtain ⟨g,there,hit⟩ := placed block member k inside
  by_cases none : f.keys = []
  · rw [finish,if_pos none] at small ⊢
    rcases getElem_snoc there with old | ⟨_,rfl⟩
    · rw [keyMayMatch_encode grouped small old]
      exact keyMayMatch_filterOf honest hit (few trivial g (List.mem_of_getElem? old))
    · rw [none] at hit
      cases hit
  · rw [finish,if_neg none] at small ⊢
    rw [keyMayMatch_encode grouped.generateFilter small there]
    refine keyMayMatch_filterOf honest hit ?_
    rcases getElem_snoc there with old | ⟨_,rfl⟩
    · exact few trivial g (List.mem_of_getElem? old)
    · exact count

end FilterBlockBuilder

end LevelDB.Sstable
