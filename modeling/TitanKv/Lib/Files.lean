import Mathlib.Logic.Function.Basic

/-! # Names, files and open handles

A directory maps names to files, and a file is reached through a name or
through a handle opened before. Renaming moves a directory entry; an open handle
stays on the file it was opened on, whether that still has a name or not. -/

namespace Files

structure FileSystem (N C : Type) where
  dir : N → Option Nat
  content : Nat → C
  next : Nat

namespace FileSystem
variable {N C : Type} [DecidableEq N] {fs : FileSystem N C} {name other : N} {i j : Nat}

/-- A write through a handle. -/
def modify (i : Nat) (f : C → C) (fs : FileSystem N C) : FileSystem N C :=
  { fs with content := Function.update fs.content i (f (fs.content i)) }

/-- A handle on the file of that name, which is created if there is none. -/
def openFile (name : N) (initial : C) (fs : FileSystem N C) : Nat × FileSystem N C :=
  match fs.dir name with
  | some i => (i, fs)
  | none => (fs.next,
    { dir := Function.update fs.dir name (some fs.next)
      content := Function.update fs.content fs.next initial
      next := fs.next + 1 })

/-- The file of that name is created or truncated and gets the content. -/
def replace (name : N) (c : C) (fs : FileSystem N C) : FileSystem N C :=
  let opened := fs.openFile name c
  opened.2.modify opened.1 fun _ => c

/-- The entry of `name` moves to `other`, over an entry that is there. -/
def rename (name other : N) (fs : FileSystem N C) : FileSystem N C :=
  match fs.dir name with
  | some i => { fs with dir := Function.update (Function.update fs.dir name none) other (some i) }
  | none => fs

/-- Entries refer to files that exist, and different names to different files. -/
structure WellFormed (fs : FileSystem N C) : Prop where
  allocated : ∀ name i, fs.dir name = some i → i < fs.next
  injective : ∀ name other i, fs.dir name = some i → fs.dir other = some i → name = other

omit [DecidableEq N] in
@[simp] theorem modify_dir (f : C → C) : (fs.modify i f).dir = fs.dir := rfl

omit [DecidableEq N] in
@[simp] theorem modify_next (f : C → C) : (fs.modify i f).next = fs.next := rfl

omit [DecidableEq N] in
@[simp] theorem modify_content (f : C → C) : (fs.modify i f).content i = f (fs.content i) := by
  simp [modify]

omit [DecidableEq N] in
theorem modify_content_of_ne (f : C → C) (h : j ≠ i) :
    (fs.modify i f).content j = fs.content j := by
  simp [modify, h]

omit [DecidableEq N] in
theorem WellFormed.modify (h : fs.WellFormed) (f : C → C) : (fs.modify i f).WellFormed :=
  ⟨h.allocated, h.injective⟩

theorem openFile_of_some (initial : C) (h : fs.dir name = some i) :
    fs.openFile name initial = (i, fs) := by
  simp [openFile, h]

/-- Opening leaves the files that exist as they are. -/
theorem openFile_content (initial : C) (hj : j < fs.next) :
    (fs.openFile name initial).2.content j = fs.content j := by
  unfold openFile
  cases fs.dir name with
  | some i => rfl
  | none => exact Function.update_of_ne (Nat.ne_of_lt hj) _ _

theorem openFile_dir_of_ne (initial : C) (h : other ≠ name) :
    (fs.openFile name initial).2.dir other = fs.dir other := by
  unfold openFile
  cases fs.dir name with
  | some i => rfl
  | none => exact Function.update_of_ne h _ _

/-- The handle is the old file of that name, or a new one. -/
theorem openFile_handle (initial : C) :
    fs.dir name = some (fs.openFile name initial).1 ∨ (fs.openFile name initial).1 = fs.next := by
  unfold openFile
  cases fs.dir name with
  | some i => exact Or.inl rfl
  | none => exact Or.inr rfl

theorem WellFormed.openFile (h : fs.WellFormed) (initial : C) :
    (fs.openFile name initial).2.WellFormed := by
  unfold FileSystem.openFile
  cases hd : fs.dir name with
  | some i => exact h
  | none =>
    have hentry : ∀ m k, Function.update fs.dir name (some fs.next) m = some k →
        m = name ∧ k = fs.next ∨ m ≠ name ∧ fs.dir m = some k := by
      intro m k hk
      by_cases hm : m = name
      · subst hm
        rw [Function.update_self] at hk
        exact Or.inl ⟨rfl, (Option.some.inj hk).symm⟩
      · rw [Function.update_of_ne hm] at hk
        exact Or.inr ⟨hm, hk⟩
    constructor
    · intro m k hk
      rcases hentry m k hk with ⟨-, rfl⟩ | ⟨-, hk⟩
      · exact Nat.lt_succ_self _
      · exact Nat.lt_succ_of_lt (h.allocated m k hk)
    · intro m n k hm hn
      rcases hentry m k hm with ⟨rfl, rfl⟩ | ⟨-, hold⟩
      · rcases hentry n fs.next hn with ⟨rfl, -⟩ | ⟨-, hold⟩
        · rfl
        · exact absurd (h.allocated n _ hold) (Nat.lt_irrefl _)
      · rcases hentry n k hn with ⟨rfl, rfl⟩ | ⟨-, hold'⟩
        · exact absurd (h.allocated m _ hold) (Nat.lt_irrefl _)
        · exact h.injective m n k hold hold'

/-- A replaced file is the old file of that name or a new one; others stay. -/
theorem replace_content_of_ne (c : C) (hj : j < fs.next) (hname : fs.dir name ≠ some j) :
    (fs.replace name c).content j = fs.content j := by
  have hne : j ≠ (fs.openFile name c).1 := by
    rintro rfl
    have hhandle : fs.dir name = some (fs.openFile name c).1 ∨ (fs.openFile name c).1 = fs.next :=
      openFile_handle c
    rcases hhandle with h | h
    · exact hname h
    · exact absurd hj (by rw [h]; exact Nat.lt_irrefl _)
  rw [replace, modify_content_of_ne _ hne, openFile_content c hj]

theorem replace_dir_of_ne (c : C) (h : other ≠ name) :
    (fs.replace name c).dir other = fs.dir other :=
  openFile_dir_of_ne c h

theorem WellFormed.replace (h : fs.WellFormed) (c : C) : (fs.replace name c).WellFormed :=
  (h.openFile c).modify (i := (fs.openFile name c).1) fun _ => c

@[simp] theorem rename_content : (fs.rename name other).content = fs.content := by
  unfold rename
  cases fs.dir name <;> rfl

@[simp] theorem rename_next : (fs.rename name other).next = fs.next := by
  unfold rename
  cases fs.dir name <;> rfl

theorem WellFormed.rename (h : fs.WellFormed) : (fs.rename name other).WellFormed := by
  unfold FileSystem.rename
  cases hd : fs.dir name with
  | none => exact h
  | some i =>
    have hentry : ∀ m k, Function.update (Function.update fs.dir name none) other (some i) m =
        some k →
        m = other ∧ k = i ∨ m ≠ other ∧ m ≠ name ∧ fs.dir m = some k := by
      intro m k hk
      by_cases hm : m = other
      · subst hm
        rw [Function.update_self] at hk
        exact Or.inl ⟨rfl, (Option.some.inj hk).symm⟩
      · rw [Function.update_of_ne hm] at hk
        by_cases hn : m = name
        · subst hn
          rw [Function.update_self] at hk
          cases hk
        · rw [Function.update_of_ne hn] at hk
          exact Or.inr ⟨hm, hn, hk⟩
    constructor
    · intro m k hk
      rcases hentry m k hk with ⟨-, rfl⟩ | ⟨-, -, hk⟩
      · exact h.allocated name _ hd
      · exact h.allocated m k hk
    · intro m n k hm hn
      rcases hentry m k hm with ⟨rfl, rfl⟩ | ⟨-, hne, hold⟩
      · rcases hentry n k hn with ⟨rfl, -⟩ | ⟨-, hne, hold⟩
        · rfl
        · exact absurd (h.injective n name k hold hd) hne
      · rcases hentry n k hn with ⟨rfl, rfl⟩ | ⟨-, -, hold'⟩
        · exact absurd (h.injective m name k hold hd) hne
        · exact h.injective m n k hold hold'

end FileSystem

end Files
