import SceLibcPosix.Descriptor.Release
import SceLibcPosix.Descriptor.Create
import SceLibcPosix.Descriptor.Steps
import SceLibcPosix.Path.Lexical

namespace SceLibcPosix.Path

open Errno VitaError Programs
open Descriptor (O_CREAT O_DIRECTORY Table Entry Slot KernelAsk openAt fdGrab GrabOutcome fail serve
  ftruncate)

inductive FiosCall
  | sceFiosStatSync
  | sceFiosDeleteSync
  | sceFiosFileTruncateSync (length : ℤ)
  | sceFiosDirectoryCreateSync
  | sceFiosDHOpenSync
  | sceFiosFHOpenSync
  | sceFiosFHOpenWithModeSync (mode : ℕ)
deriving DecidableEq, Repr

structure FiosAsk where
  path : List Char
  call : FiosCall
deriving DecidableEq, Repr

/-- The code, and what a routine stores besides: whether the path names a directory, or a handle. -/
structure FiosAnswer where
  ret : ℤ
  isDir : Bool := false
  handle : ℤ := 0
deriving DecidableEq, Repr

abbrev FiosProgram := Program FiosAsk fun _ ↦ FiosAnswer

def fios (path : List Char) (c : FiosCall) : FiosProgram FiosAnswer := Program.query ⟨path, c⟩

/-- The beginning of the calls that look up their path, for the result of `calloc` and the content
of `__cwd`. There is no result where `__realpath` reads outside its buffer. -/
def withRealpath (alloc : Bool) (cwd path : List Char)
    (body : List Char → FiosProgram (Option Descriptor.Outcome)) :
    FiosProgram (Option Descriptor.Outcome) :=
  match (realpath alloc cwd (some path)).1 with
  | .undefined => return none
  | .null errno => return some (fail errno)
  | .ok fullPath => body fullPath

def stat (net : NetErrno → ℤ) (alloc : Bool) (cwd path : List Char) :
    FiosProgram (Option Descriptor.Outcome) :=
  withRealpath alloc cwd path fun fullPath ↦ do
    let x ← fios fullPath .sceFiosStatSync
    return some (if x.ret < 0 then fail (sceErrnoToErrno net x.ret .FIOS) else ⟨0, some 0⟩)

def unlink (net : NetErrno → ℤ) (alloc : Bool) (cwd path : List Char) :
    FiosProgram (Option Descriptor.Outcome) :=
  withRealpath alloc cwd path fun fullPath ↦ do
    let x ← fios fullPath .sceFiosDeleteSync
    return some (if x.ret < 0 then fail (sceErrnoToErrno net x.ret .FIOS) else ⟨0, some 0⟩)

def openedHandle (net : NetErrno → ℤ) (x : FiosAnswer) : Descriptor.Outcome :=
  if x.ret < 0 then fail (sceErrnoToErrno net x.ret .FIOS) else ⟨x.handle, none⟩

/-- `open` as far as the handle, but for the flags that FIOS gets. -/
def openHandle (net : NetErrno → ℤ) (alloc : Bool) (cwd path : List Char) (flags : BitVec 32)
    (arg : ℕ) : FiosProgram (Option Descriptor.Outcome) :=
  withRealpath alloc cwd path fun fullPath ↦ do
    let st ← fios fullPath .sceFiosStatSync
    if (0 ≤ st.ret ∧ st.isDir = true) ∧ flags &&& O_DIRECTORY ≠ 0 then
      if flags &&& O_CREAT ≠ 0 then
        let x ← fios fullPath .sceFiosDirectoryCreateSync
        if x.ret < 0 ∧ sceErrnoToErrno net x.ret .FIOS ≠ EEXIST then
          return some (fail (sceErrnoToErrno net x.ret .FIOS))
        else return some (openedHandle net (← fios fullPath .sceFiosDHOpenSync))
      else return some (openedHandle net (← fios fullPath .sceFiosDHOpenSync))
    else if flags &&& O_CREAT ≠ 0 ∧ arg ≠ 0 then
      return some (openedHandle net (← fios fullPath (.sceFiosFHOpenWithModeSync arg)))
    else return some (openedHandle net (← fios fullPath .sceFiosFHOpenSync))

/-- `truncate`, which does not look up its path. -/
def truncate (net : NetErrno → ℤ) (path : List Char) (length : ℤ) :
    FiosProgram Descriptor.Outcome := do
  let x ← fios path (.sceFiosFileTruncateSync length)
  return if x.ret < 0 then fail (sceErrnoToErrno net x.ret .GENERIC) else ⟨0, some 0⟩

/-- A call that has FIOS act on one path only. -/
def ActsOn {α : Type} (p : FiosProgram α) (fullPath : List Char) : Prop :=
  ∀ tr r, p.Path tr r → ∀ e ∈ tr, e.1.path = fullPath

/-- A file system that answers every question with one code. -/
def answering (ret : ℤ) : FiosAsk → Unit → Option (FiosAnswer × Unit) :=
  fun _ _ ↦ some (⟨ret, false, 0⟩, ())

section

variable {α : Type} {net : NetErrno → ℤ} {alloc : Bool} {cwd path fullPath : List Char}
  {length ret fd : ℤ} {t : Table} {i : Entry} {s : Slot} {σ : Type}
  {K : (q : KernelAsk) → σ → q.Answer × σ} {k : σ}

theorem actsOn_pure (r : α) : ActsOn (pure r) fullPath := by
  intro tr x h e he
  cases h
  cases he

theorem actsOn_fios {c : FiosCall} {g : FiosAnswer → FiosProgram α}
    (hg : ∀ x, ActsOn (g x) fullPath) : ActsOn (fios fullPath c >>= g) fullPath := by
  intro tr r h e he
  cases h with
  | ask q next x h =>
    rcases List.mem_cons.mp he with rfl | he
    · rfl
    · exact hg x _ _ h e he

theorem actsOn_ite {c : Prop} [Decidable c] {p q : FiosProgram α} (hp : ActsOn p fullPath)
    (hq : ActsOn q fullPath) : ActsOn (if c then p else q) fullPath := by
  split
  · exact hp
  · exact hq

theorem actsOn_withRealpath {body : List Char → FiosProgram (Option Descriptor.Outcome)}
    (h : (realpath alloc cwd (some path)).1 = .ok fullPath)
    (hbody : ActsOn (body fullPath) fullPath) :
    ActsOn (withRealpath alloc cwd path body) fullPath := by
  rw [withRealpath, h]
  exact hbody

theorem actsOn_stat (h : (realpath alloc cwd (some path)).1 = .ok fullPath) :
    ActsOn (stat net alloc cwd path) fullPath :=
  actsOn_withRealpath h (actsOn_fios fun _ ↦ actsOn_pure _)

theorem actsOn_unlink (h : (realpath alloc cwd (some path)).1 = .ok fullPath) :
    ActsOn (unlink net alloc cwd path) fullPath :=
  actsOn_withRealpath h (actsOn_fios fun _ ↦ actsOn_pure _)

theorem actsOn_openHandle (h : (realpath alloc cwd (some path)).1 = .ok fullPath)
    (flags : BitVec 32) (arg : ℕ) : ActsOn (openHandle net alloc cwd path flags arg) fullPath := by
  have hopen (c : FiosCall) : ActsOn (fios fullPath c >>= fun x ↦
      pure (some (openedHandle net x))) fullPath := actsOn_fios fun _ ↦ actsOn_pure _
  refine actsOn_withRealpath h (actsOn_fios fun st ↦ actsOn_ite ?_ ?_)
  · exact actsOn_ite (actsOn_fios fun x ↦ actsOn_ite (actsOn_pure _) (hopen _)) (hopen _)
  · exact actsOn_ite (hopen _) (hopen _)

theorem actsOn_truncate : ActsOn (truncate net path length) fullPath ↔ path = fullPath := by
  constructor
  · intro h
    exact h [⟨⟨path, .sceFiosFileTruncateSync length⟩, ⟨0, false, 0⟩⟩] _ (.ask _ _ _ (.ret _)) _
      (List.mem_singleton_self _)
  · rintro rfl
    exact actsOn_fios fun _ ↦ actsOn_pure _

theorem ftruncate_run (net : NetErrno → ℤ) (hopen : openAt t fd = some (s, i))
    (hfile : (t.pool i).type = .FILE)
    (hret : (K (.use (some i) (t.pool i).sceUid (.sceFiosFHTruncateSync length)) k).1 = ret) :
    ∃ t' k', (ftruncate net fd length).run (serve net K) (t, k) =
      some (if ret < 0 then fail (scefios2ErrnoToErrno ret) else ⟨0, some 0⟩, t', k') := by
  have hload : (t.addRef i 1).pool i = { t.pool i with refCount := (t.pool i).refCount + 1 } := by
    simp [Table.addRef]
  rw [ftruncate, Descriptor.run_withFd_some (Descriptor.fdGrab_open hopen), hload]
  dsimp only
  rw [hfile, ← hret]
  exact ⟨_, _, rfl⟩

/-- No code of FIOS has its error number in its low byte. -/
theorem fiosCases_low : ∀ c ∈ fiosCases, c.1.code % 256 ≠ c.2 := by decide

/-- The two translations never agree. -/
theorem generic_ne_fios (hneg : ret < 0) : ret % 256 ≠ scefios2ErrnoToErrno ret := by
  unfold scefios2ErrnoToErrno
  cases hfind : fiosCases.find? fun c ↦ c.1.code = ret with
  | none =>
    rw [Option.map_none, Option.getD_none]
    omega
  | some c =>
    have hcode := List.find?_some hfind
    rw [Option.map_some, Option.getD_some, ← of_decide_eq_true hcode]
    exact fiosCases_low c (List.mem_of_find?_eq_some hfind)

theorem truncate_run : (truncate net path length).run (answering ret) () =
    some (if ret < 0 then fail (ret % 256) else ⟨0, some 0⟩, ()) := rfl

end

/-- `truncate` acts on the file that the other calls act on, and makes of a code what `ftruncate`
makes of it. -/
structure TruncatesAlike {σ : Type} (net : NetErrno → ℤ) (alloc : Bool) (cwd path : List Char)
    (length ret : ℤ) (K : (q : KernelAsk) → σ → q.Answer × σ) (t : Table) (k : σ) (fd : ℤ) :
    Prop where
  acts : ∃ fullPath, (realpath alloc cwd (some path)).1 = .ok fullPath ∧
    ActsOn (stat net alloc cwd path) fullPath ∧ ActsOn (unlink net alloc cwd path) fullPath ∧
    (∀ flags arg, ActsOn (openHandle net alloc cwd path flags arg) fullPath) ∧
    ActsOn (truncate net path length) fullPath
  reports : ∃ out t' k', (truncate net path length).run (answering ret) () = some (out, ()) ∧
    (ftruncate net fd length).run (serve net K) (t, k) = some (out, t', k')

section

variable {σ : Type} {net : NetErrno → ℤ} {alloc : Bool} {cwd path : List Char} {length ret fd : ℤ}
  {K : (q : KernelAsk) → σ → q.Answer × σ} {t : Table} {k : σ} {s : Slot} {i : Entry}

theorem TruncatesAlike.path_fixed (h : TruncatesAlike net alloc cwd path length ret K t k fd) :
    (realpath alloc cwd (some path)).1 = .ok path := by
  obtain ⟨fullPath, hfull, -, -, -, hacts⟩ := h.acts
  rwa [← actsOn_truncate.mp hacts] at hfull

theorem TruncatesAlike.succeeds (h : TruncatesAlike net alloc cwd path length ret K t k fd)
    (hopen : openAt t fd = some (s, i)) (hfile : (t.pool i).type = .FILE)
    (hret : (K (.use (some i) (t.pool i).sceUid (.sceFiosFHTruncateSync length)) k).1 = ret) :
    0 ≤ ret := by
  obtain ⟨t', k', hrun⟩ := ftruncate_run net hopen hfile hret
  obtain ⟨out, t₁, k₁, htrunc, hftrunc⟩ := h.reports
  by_contra hneg
  rw [not_le] at hneg
  rw [truncate_run, if_pos hneg] at htrunc
  rw [hrun, if_pos hneg] at hftrunc
  obtain ⟨rfl, -⟩ := Prod.mk.inj (Option.some.inj htrunc)
  obtain ⟨herr, -⟩ := Prod.mk.inj (Option.some.inj hftrunc)
  exact generic_ne_fios hneg (Option.some.inj (congrArg Descriptor.Outcome.errno herr)).symm

end

/-- `truncate` does what `ftruncate` does to the file exactly if `__realpath` leaves the path as it
is and nothing fails. -/
theorem truncate_alike_iff {σ : Type} (net : NetErrno → ℤ) (alloc : Bool) (cwd path : List Char)
    (length ret : ℤ) {K : (q : KernelAsk) → σ → q.Answer × σ} {t : Table} {k : σ} {fd : ℤ}
    {s : Slot} {i : Entry} (hopen : openAt t fd = some (s, i)) (hfile : (t.pool i).type = .FILE)
    (hret : (K (.use (some i) (t.pool i).sceUid (.sceFiosFHTruncateSync length)) k).1 = ret) :
    TruncatesAlike net alloc cwd path length ret K t k fd ↔
      (realpath alloc cwd (some path)).1 = .ok path ∧ 0 ≤ ret := by
  constructor
  · exact fun h ↦ ⟨h.path_fixed, h.succeeds hopen hfile hret⟩
  · rintro ⟨hfull, hpos⟩
    obtain ⟨t', k', hrun⟩ := ftruncate_run net hopen hfile hret
    refine ⟨⟨path, hfull, actsOn_stat hfull, actsOn_unlink hfull, actsOn_openHandle hfull,
      actsOn_truncate.mpr rfl⟩, ⟨0, some 0⟩, t', k', ?_, ?_⟩
    · rw [truncate_run, if_neg (not_lt.mpr hpos)]
    · rw [hrun, if_neg (not_lt.mpr hpos)]

theorem openFile_open : openAt Descriptor.openFile.table 3 = some (3, 3) :=
  Descriptor.openAt_eq_some.mpr ⟨rfl, Descriptor.openFile_slot⟩

theorem openFile_type : (Descriptor.openFile.table.pool 3).type = .FILE := by
  rw [Descriptor.openFile_entry]

theorem truncate_alike_iff_full :
    TruncatesAlike 0 true [] "app0:/a".toList 10 0 (fun q k ↦ (q.quiet, k))
      Descriptor.openFile.table () 3 :=
  (truncate_alike_iff 0 true [] "app0:/a".toList 10 0 openFile_open openFile_type rfl).mpr
    ⟨realpath_fixed (by decide) (by decide) (by decide) [], le_rfl⟩

theorem relative_drive : getDrive "a".toList = 0 := by decide

theorem fits_relative : Fits [] "a".toList where
  joined _ _ := by decide
  toFullFits := .of_length (by decide) (.inr (by decide)) (by decide)

def missing : (q : KernelAsk) → Unit → q.Answer × Unit
  | .use _ _ _, _ => (FiosError.BAD_PATH.code, ())
  | q, _ => (q.quiet, ())

/-- `truncate` takes a relative path as it is, and reports the low byte of a code. -/
theorem truncate_raw_path :
    ¬ TruncatesAlike 0 true [] "a".toList 10 0 (fun q k ↦ (q.quiet, k))
      Descriptor.openFile.table () 3 ∧
    ¬ TruncatesAlike 0 true [] "app0:/a".toList 10 FiosError.BAD_PATH.code missing
      Descriptor.openFile.table () 3 := by
  refine ⟨fun h ↦ ?_, fun h ↦ ?_⟩
  · have hfixed := h.path_fixed
    rw [realpath_fits (.inl rfl) (by decide) (fun h ↦ absurd relative_drive h) fits_relative]
      at hfixed
    exact absurd (Outcome.ok.inj hfixed) (by decide)
  · exact absurd (h.succeeds openFile_open openFile_type rfl) (by decide)

end SceLibcPosix.Path
