import LevelDB.Version
import Mathlib.Data.List.TakeWhile

/-! What an edit does to a version. The files of a level are the strictly ordered list
of the files that are there, so a version is known by its members; applying edits one by
one and collecting them in one builder give the same version. -/
namespace LevelDB

variable {K : Type} [LinearOrder K]

theorem BySmallestKey.irrefl (a : FileMetaData K) : ¬BySmallestKey a a := by
  rintro (lt | ⟨-,lt⟩)
  · exact lt_irrefl _ lt
  · exact lt_irrefl _ lt

theorem BySmallestKey.trans {a b c : FileMetaData K} (first : BySmallestKey a b)
    (second : BySmallestKey b c) : BySmallestKey a c := by
  rcases first with lt | ⟨same,lt⟩ <;> rcases second with lt' | ⟨same',lt'⟩
  · exact .inl (lt.trans lt')
  · exact .inl (same' ▸ lt)
  · exact .inl (same ▸ lt')
  · exact .inr ⟨same.trans same',lt.trans lt'⟩

theorem BySmallestKey.total {a b : FileMetaData K} (number : a.number ≠ b.number) :
    BySmallestKey a b ∨ BySmallestKey b a := by
  rcases lt_trichotomy a.smallest b.smallest with lt | same | lt
  · exact .inl (.inl lt)
  · rcases lt_or_gt_of_ne number with less | more
    · exact .inl (.inr ⟨same,less⟩)
    · exact .inr (.inr ⟨same.symm,more⟩)
  · exact .inr (.inl lt)

theorem BySmallestKey.asymm {a b : FileMetaData K} (first : BySmallestKey a b) : ¬BySmallestKey b a :=
  fun second => BySmallestKey.irrefl a (first.trans second)

abbrev InOrder (files : List (FileMetaData K)) : Prop := files.Pairwise BySmallestKey

/-- Ordered lists with the same members are the same list. -/
theorem InOrder.ext {left right : List (FileMetaData K)} (first : InOrder left)
    (second : InOrder right) (same : ∀ f, f ∈ left ↔ f ∈ right) : left = right := by
  have nodup : ∀ files : List (FileMetaData K), InOrder files → files.Nodup := by
    intro files order
    refine order.imp ?_
    rintro a b lt rfl
    exact BySmallestKey.irrefl a lt
  have perm : left.Perm right :=
    (List.perm_ext_iff_of_nodup (nodup left first) (nodup right second)).mpr same
  exact perm.eq_of_pairwise (fun a b _ _ lt gt => absurd gt lt.asymm) first second

/-- Different files have different numbers, so an equivalent file is the file itself. -/
theorem mem_insertFile (f : FileMetaData K) (files : List (FileMetaData K))
    (named : ∀ g ∈ files, g.number = f.number → g = f) (x : FileMetaData K) :
    x ∈ insertFile f files ↔ x = f ∨ x ∈ files := by
  induction files with
  | nil => simp [insertFile]
  | cons g files ih =>
    have rest := ih fun h hh => named h (List.mem_cons_of_mem g hh)
    rw [insertFile]
    split
    · simp
    rename_i notBefore
    by_cases same : g.number = f.number
    · have equal := named g List.mem_cons_self same
      subst equal
      simp [BySmallestKey.irrefl]
    · have after : BySmallestKey g f := (BySmallestKey.total same).resolve_right notBefore
      simp only [after,if_true,List.mem_cons,rest]
      tauto

theorem insertFile_inOrder (f : FileMetaData K) (files : List (FileMetaData K))
    (named : ∀ g ∈ files, g.number = f.number → g = f) (order : InOrder files) :
    InOrder (insertFile f files) := by
  induction files with
  | nil => simp [insertFile]
  | cons g files ih =>
    obtain ⟨head,tail⟩ := List.pairwise_cons.mp order
    have rest := ih (fun h hh => named h (List.mem_cons_of_mem g hh)) tail
    rw [insertFile]
    split
    · rename_i before
      refine List.pairwise_cons.mpr ⟨?_,order⟩
      intro h hh
      rcases List.mem_cons.mp hh with rfl | later
      · exact before
      · exact before.trans (head h later)
    rename_i notBefore
    by_cases same : g.number = f.number
    · have equal := named g List.mem_cons_self same
      subst equal
      simpa [BySmallestKey.irrefl] using order
    · have after : BySmallestKey g f := (BySmallestKey.total same).resolve_right notBefore
      rw [if_pos after]
      refine List.pairwise_cons.mpr ⟨?_,rest⟩
      intro h hh
      rcases (mem_insertFile f files (fun h hh => named h (List.mem_cons_of_mem g hh)) h).mp hh with
        rfl | later
      · exact after
      · exact head h later

theorem mem_saveLevel (base added : List (FileMetaData K)) (f : FileMetaData K) :
    f ∈ saveLevel base added ↔ f ∈ base ∨ f ∈ added := by
  induction added generalizing base with
  | nil => simp [saveLevel]
  | cons a added ih =>
    rw [saveLevel,List.mem_append,List.mem_cons,ih,List.mem_cons]
    have split : f ∈ base ↔ f ∈ base.takeWhile (fun b => decide ¬BySmallestKey a b) ∨
        f ∈ base.dropWhile fun b => decide ¬BySmallestKey a b := by
      rw [← List.mem_append,List.takeWhile_append_dropWhile]
    rw [split]
    tauto

theorem dropWhile_after (a : FileMetaData K) (base : List (FileMetaData K)) (order : InOrder base) :
    ∀ f ∈ base.dropWhile (fun b => decide ¬BySmallestKey a b), BySmallestKey a f := by
  induction base with
  | nil => simp
  | cons g base ih =>
    obtain ⟨head,tail⟩ := List.pairwise_cons.mp order
    intro f member
    rw [List.dropWhile_cons] at member
    split at member
    · exact ih tail f member
    · rename_i stopped
      have after : BySmallestKey a g := by simpa using stopped
      rcases List.mem_cons.mp member with rfl | later
      · exact after
      · exact after.trans (head f later)

theorem saveLevel_inOrder (base added : List (FileMetaData K)) (first : InOrder base)
    (second : InOrder added) (apart : ∀ f ∈ base, ∀ g ∈ added, f.number ≠ g.number) :
    InOrder (saveLevel base added) := by
  induction added generalizing base with
  | nil => exact first
  | cons a added ih =>
    obtain ⟨head,tail⟩ := List.pairwise_cons.mp second
    have dropped : List.Sublist (base.dropWhile fun b => decide ¬BySmallestKey a b) base :=
      (List.dropWhile_suffix _).sublist
    have taken : List.Sublist (base.takeWhile fun b => decide ¬BySmallestKey a b) base :=
      (List.takeWhile_prefix _).sublist
    have rest := ih _ (first.sublist dropped) tail
      fun f hf g hg => apart f (dropped.subset hf) g (List.mem_cons_of_mem a hg)
    have before : ∀ f ∈ base.takeWhile (fun b => decide ¬BySmallestKey a b), BySmallestKey f a := by
      intro f hf
      have notAfter : ¬BySmallestKey a f := by simpa using List.mem_takeWhile_imp hf
      exact (BySmallestKey.total
        (apart f (taken.subset hf) a List.mem_cons_self)).resolve_right notAfter
    have after : ∀ f ∈ saveLevel (base.dropWhile fun b => decide ¬BySmallestKey a b) added,
        BySmallestKey a f := by
      intro f hf
      rcases (mem_saveLevel _ _ f).mp hf with old | new
      · exact dropWhile_after a base first f old
      · exact head f new
    rw [saveLevel,InOrder,List.pairwise_append,List.pairwise_cons]
    refine ⟨first.sublist taken,⟨after,rest⟩,?_⟩
    intro f hf g hg
    rcases List.mem_cons.mp hg with rfl | later
    · exact before f hf
    · exact (before f hf).trans (after g later)

def VersionEdit.newAt (e : VersionEdit K) (level : Nat) : List (FileMetaData K) :=
  e.newFiles.filterMap fun n => if n.1 = level then some n.2 else none

def VersionEdit.deletedAt (e : VersionEdit K) (level : Nat) : List Nat :=
  e.deletedFiles.filterMap fun d => if d.1 = level then some d.2 else none

/-- The files of a builder are in order and none is both old and new. -/
structure Builder.Wf (b : Builder K) : Prop where
  base : ∀ level, InOrder (b.base.files level)
  added : ∀ level, InOrder (b.added level)
  apart : ∀ level, ∀ f ∈ b.base.files level, ∀ g ∈ b.added level, f.number ≠ g.number

/-- The numbers that an edit adds to a level are not in the base version, and name one file. -/
structure VersionEdit.FreshFor (e : VersionEdit K) (b : Builder K) : Prop where
  base : ∀ level, ∀ f ∈ e.newAt level, ∀ g ∈ b.base.files level, g.number ≠ f.number
  added : ∀ level, ∀ f ∈ e.newAt level, ∀ g ∈ b.added level, g.number = f.number → g = f
  named : ∀ level, ∀ f ∈ e.newAt level, ∀ g ∈ e.newAt level, g.number = f.number → g = f

omit [LinearOrder K] in
theorem named_of_pairwise {files : List (FileMetaData K)}
    (distinct : files.Pairwise fun f g => f.number ≠ g.number) :
    ∀ f ∈ files, ∀ g ∈ files, g.number = f.number → g = f := by
  have symm : Std.Symm fun f g : FileMetaData K => f.number ≠ g.number := ⟨fun _ _ ne => ne.symm⟩
  intro f hf g hg same
  by_contra ne
  exact distinct.forall hg hf ne same

theorem Builder.new_wf (v : Version K) (order : ∀ level, InOrder (v.files level)) :
    (Builder.new v).Wf :=
  ⟨order,fun _ => List.Pairwise.nil,fun _ _ _ _ hg => by simp [Builder.new] at hg⟩

omit [LinearOrder K] in
theorem deleteAll_base (ds : List (Nat × Nat)) (b : Builder K) :
    (ds.foldl (fun b d => b.delete d.1 d.2) b).base = b.base ∧
      (ds.foldl (fun b d => b.delete d.1 d.2) b).added = b.added := by
  induction ds generalizing b with
  | nil => exact ⟨rfl,rfl⟩
  | cons d ds ih => exact ih (b.delete d.1 d.2)

omit [LinearOrder K] in
theorem mem_deleteAll (ds : List (Nat × Nat)) (b : Builder K) (level number : Nat) :
    number ∈ (ds.foldl (fun b d => b.delete d.1 d.2) b).deleted level ↔
      (level,number) ∈ ds ∨ number ∈ b.deleted level := by
  induction ds generalizing b with
  | nil => simp
  | cons d ds ih =>
    rw [List.foldl_cons,ih,List.mem_cons]
    by_cases here : level = d.1
    · subst here
      simp only [Builder.delete,Function.update_self,List.mem_cons]
      constructor
      · rintro (later | same | old)
        · exact .inl (.inr later)
        · exact .inl (.inl (by rw [same]))
        · exact .inr old
      · rintro ((same | later) | old)
        · exact .inr (.inl (by rw [← same]))
        · exact .inl later
        · exact .inr (.inr old)
    · have other : (level,number) ≠ d := by rintro rfl; exact here rfl
      simp [Builder.delete,Function.update_of_ne here,other]

theorem addAll_base (ns : List (Nat × FileMetaData K)) (b : Builder K) :
    (ns.foldl (fun b n => b.add n.1 n.2) b).base = b.base := by
  induction ns generalizing b with
  | nil => rfl
  | cons n ns ih => exact ih (b.add n.1 n.2)

theorem mem_addAll_deleted (ns : List (Nat × FileMetaData K)) (b : Builder K) (level number : Nat) :
    number ∈ (ns.foldl (fun b n => b.add n.1 n.2) b).deleted level ↔
      number ∈ b.deleted level ∧ ∀ f, (level,f) ∈ ns → f.number ≠ number := by
  induction ns generalizing b with
  | nil => simp
  | cons n ns ih =>
    obtain ⟨at_,f⟩ := n
    rw [List.foldl_cons,ih]
    by_cases here : level = at_
    · subst here
      simp only [Builder.add,Function.update_self,List.mem_filter,decide_eq_true_eq,List.mem_cons,
        Prod.mk.injEq,true_and]
      constructor
      · rintro ⟨⟨old,ne⟩,others⟩
        refine ⟨old,?_⟩
        rintro g (rfl | later)
        · exact fun same => ne same.symm
        · exact others g later
      · rintro ⟨old,all⟩
        exact ⟨⟨old,fun same => all f (.inl rfl) same.symm⟩,fun g later => all g (.inr later)⟩
    · simp [Builder.add,here]

/-- Adding files one by one keeps the sets ordered and adds just them. -/
theorem addAll_added (ns : List (Nat × FileMetaData K)) (b : Builder K) (level : Nat)
    (order : InOrder (b.added level))
    (old : ∀ f, (level,f) ∈ ns → ∀ g ∈ b.added level, g.number = f.number → g = f)
    (named : ∀ f, (level,f) ∈ ns → ∀ g, (level,g) ∈ ns → g.number = f.number → g = f) :
    InOrder ((ns.foldl (fun b n => b.add n.1 n.2) b).added level) ∧
      ∀ f, f ∈ (ns.foldl (fun b n => b.add n.1 n.2) b).added level ↔
        (level,f) ∈ ns ∨ f ∈ b.added level := by
  induction ns generalizing b with
  | nil => exact ⟨order,by simp⟩
  | cons n ns ih =>
    obtain ⟨at_,f⟩ := n
    rw [List.foldl_cons]
    by_cases here : at_ = level
    · subst here
      have new : ∀ g ∈ b.added at_, g.number = f.number → g = f := old f List.mem_cons_self
      have set : (b.add at_ f).added at_ = insertFile f (b.added at_) := by
        simp [Builder.add]
      obtain ⟨sorted,members⟩ := ih (b.add at_ f)
        (by rw [set]; exact insertFile_inOrder f _ new order)
        (by
          intro g hg x hx
          rw [set,mem_insertFile f _ new] at hx
          rcases hx with rfl | before
          · exact named g (List.mem_cons_of_mem _ hg) x List.mem_cons_self
          · exact old g (List.mem_cons_of_mem _ hg) x before)
        fun g hg x hx => named g (List.mem_cons_of_mem _ hg) x (List.mem_cons_of_mem _ hx)
      refine ⟨sorted,?_⟩
      intro x
      rw [members,set,mem_insertFile f _ new]
      simp only [List.mem_cons,Prod.mk.injEq,true_and]
      tauto
    · have same : (b.add at_ f).added level = b.added level := by
        simp [Builder.add,Function.update_of_ne (Ne.symm here)]
      obtain ⟨sorted,members⟩ := ih (b.add at_ f) (by rw [same]; exact order)
        (by
          intro g hg x hx
          rw [same] at hx
          exact old g (List.mem_cons_of_mem _ hg) x hx)
        fun g hg x hx => named g (List.mem_cons_of_mem _ hg) x (List.mem_cons_of_mem _ hx)
      refine ⟨sorted,?_⟩
      intro x
      rw [members,same]
      have other : (level,x) ≠ (at_,f) := fun equal => here (Prod.mk.inj equal).1.symm
      simp [other]

omit [LinearOrder K] in
theorem mem_newAt (e : VersionEdit K) (level : Nat) (f : FileMetaData K) :
    f ∈ e.newAt level ↔ (level,f) ∈ e.newFiles := by
  simp only [VersionEdit.newAt,List.mem_filterMap]
  constructor
  · rintro ⟨⟨l,g⟩,member,equal⟩
    split at equal
    · cases equal
      rename_i here
      simp only at here
      rwa [here] at member
    · cases equal
  · exact fun member => ⟨(level,f),member,by simp⟩

omit [LinearOrder K] in
theorem mem_deletedAt (e : VersionEdit K) (level number : Nat) :
    number ∈ e.deletedAt level ↔ (level,number) ∈ e.deletedFiles := by
  simp only [VersionEdit.deletedAt,List.mem_filterMap]
  constructor
  · rintro ⟨⟨l,n⟩,member,equal⟩
    split at equal
    · cases equal
      rename_i here
      simp only at here
      rwa [here] at member
    · cases equal
  · exact fun member => ⟨(level,number),member,by simp⟩

theorem mem_saveTo (b : Builder K) (level : Nat) (f : FileMetaData K) :
    f ∈ b.saveTo.files level ↔
      (f ∈ b.base.files level ∨ f ∈ b.added level) ∧ f.number ∉ b.deleted level := by
  simp [Builder.saveTo,mem_saveLevel]

theorem Builder.Wf.inOrder {b : Builder K} (wf : b.Wf) (level : Nat) :
    InOrder (b.saveTo.files level) :=
  (saveLevel_inOrder _ _ (wf.base level) (wf.added level) (wf.apart level)).filter _

theorem Builder.apply_base (b : Builder K) (e : VersionEdit K) : (b.apply e).base = b.base := by
  rw [Builder.apply,addAll_base]
  exact (deleteAll_base e.deletedFiles b).1

/-- The files that were ever added. -/
theorem Builder.Wf.apply_added {b : Builder K} (wf : b.Wf) {e : VersionEdit K} (fresh : e.FreshFor b)
    (level : Nat) : InOrder ((b.apply e).added level) ∧
      ∀ f, f ∈ (b.apply e).added level ↔ f ∈ e.newAt level ∨ f ∈ b.added level := by
  have added := (deleteAll_base e.deletedFiles b).2
  have all := addAll_added e.newFiles (e.deletedFiles.foldl (fun b d => b.delete d.1 d.2) b) level
    (by rw [added]; exact wf.added level)
    (by
      intro f hf g hg
      rw [added] at hg
      exact fresh.added level f ((mem_newAt e level f).mpr hf) g hg)
    fun f hf g hg => fresh.named level f ((mem_newAt e level f).mpr hf) g ((mem_newAt e level g).mpr hg)
  rw [added] at all
  simp only [mem_newAt]
  exact all

/-- One edit in a builder: its new files, and the old ones that it does not delete. -/
theorem Builder.Wf.apply {b : Builder K} (wf : b.Wf) {e : VersionEdit K} (fresh : e.FreshFor b) :
    (b.apply e).Wf ∧ ∀ level f, f ∈ (b.apply e).saveTo.files level ↔
      f ∈ e.newAt level ∨ f ∈ b.saveTo.files level ∧ f.number ∉ e.deletedAt level := by
  have sets := wf.apply_added fresh
  have same := b.apply_base e
  have deleted : ∀ level number, number ∈ (b.apply e).deleted level ↔
      (number ∈ e.deletedAt level ∨ number ∈ b.deleted level) ∧
        ∀ f ∈ e.newAt level, f.number ≠ number := by
    intro level number
    rw [Builder.apply,mem_addAll_deleted,mem_deleteAll,mem_deletedAt]
    simp only [mem_newAt]
  refine ⟨⟨?_,fun level => (sets level).1,?_⟩,?_⟩
  · rw [same]; exact wf.base
  · intro level f hf g hg
    rw [same] at hf
    rcases ((sets level).2 g).mp hg with new | old
    · exact fresh.base level g new f hf
    · exact wf.apart level f hf g old
  · intro level f
    rw [mem_saveTo,mem_saveTo,same,(sets level).2,deleted]
    constructor
    · rintro ⟨old | new | old,kept⟩
      · simp only [not_and_or,not_or] at kept
        rcases kept with ⟨a,b⟩ | added
        · exact .inr ⟨⟨.inl old,b⟩,a⟩
        · exact absurd (fun g hg => (fresh.base level g hg f old).symm) added
      · exact .inl new
      · simp only [not_and_or,not_or,not_forall,not_not] at kept
        rcases kept with ⟨a,b⟩ | ⟨g,hg,same⟩
        · exact .inr ⟨⟨.inr old,b⟩,a⟩
        · -- a file that was deleted before is added again
          exact .inl (fresh.added level g hg f old same.symm ▸ hg)
    · rintro (new | ⟨⟨old,b⟩,a⟩)
      · exact ⟨.inr (.inl new),fun gone => gone.2 f new rfl⟩
      · refine ⟨?_,fun gone => gone.1.elim a b⟩
        rcases old with old | old
        · exact .inl old
        · exact .inr (.inr old)

theorem newBuilder_saveTo (v : Version K) : (Builder.new v).saveTo = v := by
  obtain ⟨files⟩ := v
  simp [Builder.saveTo,Builder.new,saveLevel]

/-- What `LogAndApply` makes of a version. -/
theorem Version.mem_apply (v : Version K) (e : VersionEdit K)
    (order : ∀ level, InOrder (v.files level)) (fresh : e.FreshFor (Builder.new v)) :
    (∀ level, InOrder ((v.apply e).files level)) ∧ ∀ level f, f ∈ (v.apply e).files level ↔
      f ∈ e.newAt level ∨ f ∈ v.files level ∧ f.number ∉ e.deletedAt level := by
  obtain ⟨wf,members⟩ := (Builder.new_wf v order).apply fresh
  refine ⟨wf.inOrder,?_⟩
  intro level f
  have spec := members level f
  rwa [newBuilder_saveTo] at spec

/-- Replaying an edit in a builder is applying it to the version built so far, where the
files that it adds to a level are not there. -/
theorem Builder.Wf.apply_saveTo {b : Builder K} (wf : b.Wf) {e : VersionEdit K} (fresh : e.FreshFor b)
    (absent : ∀ level, ∀ f ∈ e.newAt level, ∀ g ∈ b.saveTo.files level, g.number ≠ f.number) :
    (b.apply e).saveTo = b.saveTo.apply e := by
  obtain ⟨wf',members⟩ := wf.apply fresh
  have small : e.FreshFor (Builder.new b.saveTo) :=
    ⟨absent,fun _ _ _ g hg => absurd hg List.not_mem_nil,fresh.named⟩
  obtain ⟨order,members'⟩ := b.saveTo.mem_apply e wf.inOrder small
  have equal : ∀ level, (b.apply e).saveTo.files level = (b.saveTo.apply e).files level :=
    fun level => InOrder.ext (wf'.inOrder level) (order level) fun f => by
      rw [members,members']
  cases h : (b.apply e).saveTo
  cases h' : b.saveTo.apply e
  rw [h,h'] at equal
  exact congrArg Version.mk (funext equal)

end LevelDB
