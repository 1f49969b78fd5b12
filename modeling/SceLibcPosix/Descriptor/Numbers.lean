import SceLibcPosix.Descriptor.OpenFiles
import SceLibcPosix.Lib.Simulations

namespace SceLibcPosix.Descriptor

open Errno VitaError References Programs Simulations Function

/-- An open file: where it is kept, and the kernel object that it is. -/
abbrev OpenFile := Entry × KernelObject

abbrev Files := Slot → Option OpenFile

namespace Files

/-- The lowest unused number from `min` on. -/
def Lowest (f : Files) (min : ℤ) (n : Slot) : Prop :=
  IsLeast {n : Slot | min ≤ n.val ∧ f n = none} n

def Full (f : Files) (min : ℤ) : Prop := ∀ n : Slot, min ≤ n.val → f n ≠ none

def Vacant (f : Files) (i : Entry) : Prop := ∀ n a, f n = some a → a.1 ≠ i

def at' (f : Files) (fd : ℤ) : Option OpenFile := (slotOf fd).bind f

/-- A number is given up. The kernel closes the file with its last number, if it can. -/
inductive GivesUp (f : Files) (n : Slot) (r : ℤ) : Bool → List KernelCall → Files → Prop
  | shared (a : OpenFile) (m : Slot) (h : f n = some a) (hne : m ≠ n) (hm : f m = some a) :
    GivesUp f n r true [] (update f n none)
  | last (a : OpenFile) (h : f n = some a) (hlast : ∀ m, f m = some a → m = n) (hr : 0 ≤ r) :
    GivesUp f n r true [.close a.2 r] (update f n none)
  | failed (a : OpenFile) (h : f n = some a) (hlast : ∀ m, f m = some a → m = n) (hr : r < 0) :
    GivesUp f n r false [.close a.2 r] f

theorem GivesUp.other {f f' : Files} {n m : Slot} {r : ℤ} {b : Bool} {calls : List KernelCall}
    (h : f.GivesUp n r b calls f') (hm : m ≠ n) : f' m = f m := by
  cases h with
  | shared => exact update_of_ne hm _ _
  | last => exact update_of_ne hm _ _
  | failed => rfl

theorem GivesUp.used {f f' : Files} {n : Slot} {r : ℤ} {b : Bool} {calls : List KernelCall}
    (h : f.GivesUp n r b calls f') : f n ≠ none := by
  cases h with
  | shared a _ ha => exact ha ▸ Option.some_ne_none a
  | last a ha => exact ha ▸ Option.some_ne_none a
  | failed a ha => exact ha ▸ Option.some_ne_none a

end Files

namespace SessionCall

def Makes : SessionCall → Prop
  | open' _ _ _ | socket _ | accept _ _ | pipe _ => True
  | _ => False

/-- The object that the kernel creates in a call. -/
def Creates (net : NetErrno → ℤ) (f : Files) : SessionCall → KernelObject → Prop
  | open' k fullPath flags, o => Opens net k fullPath flags ∧ o = openedObject k flags
  | socket k, o => 0 ≤ k.netSocket ∧ o = .socket k.netSocket
  | accept k fd, o => f.at' fd ≠ none ∧ 0 ≤ k.netAccept ∧ o = .socket k.netAccept
  | pipe k, o => 0 ≤ k.msgPipe ∧ o = .msgPipe k.msgPipe
  | _, _ => False

/-- What a call does to an object for which there is no descriptor: `socket` and `accept` leave it
open. -/
def undoing : SessionCall → KernelObject → List KernelCall
  | open' k _ _, o | pipe k, o => [.close o k.close]
  | _, _ => []

/-- The descriptor that a call duplicates, and the lowest number for the duplicate. -/
def Duplicates : SessionCall → ℤ → ℤ → Prop
  | dup fd, fd', min => fd' = fd ∧ min = 0
  | use (.fcntl fd .F_DUPFD arg), fd', min => fd' = fd ∧ min = arg ∧ arg < MAX_OPEN_FILES
  | _, _, _ => False

/-- The descriptors that a call returns, or `none` for its -1. -/
def reply (net : NetErrno → ℤ) (s : Session) : SessionCall → Option (List Slot)
  | open' k fullPath flags => (Descriptor.open' net s.table k fullPath flags).1.toOption.map ([·])
  | socket k => (Descriptor.socket net s.table k).1.toOption.map ([·])
  | accept k fd => (Descriptor.accept net s.table k fd).1.toOption.map ([·])
  | pipe k => (Descriptor.pipe net s.table k).1.toOption.map fun p ↦ [p.1, p.2]
  | dup fd => (duplicateDescriptor s.table fd 0).1.toOption.map ([·])
  | dup2 oldfd newfd r => (Descriptor.dup2 net s.table oldfd newfd r).1.toOption.map ([·])
  | close fd r => if (releaseDescriptor net s.table fd r).1 < 0 then none else some []
  | use (.fcntl fd .F_DUPFD arg) =>
    if MAX_OPEN_FILES ≤ arg then none
    else (duplicateDescriptor s.table fd arg).1.toOption.map ([·])
  | use _ => some []

end SessionCall

/-- A call, what it returns, and the calls that it has made to create and destroy objects, last call
first. -/
structure Event where
  call : SessionCall
  reply : Option (List Slot)
  calls : List KernelCall

/-- What the calls do to the open files of a program, without a count of references. -/
inductive FilesStep (net : NetErrno → ℤ) (f : Files) : Event → Files → Prop
  | opened (c : SessionCall) (hp : ∀ k, c ≠ .pipe k) (o : KernelObject) (n : Slot) (i : Entry)
    (hc : c.Creates net f o) (hn : f.Lowest 3 n) (hi : f.Vacant i) :
    FilesStep net f ⟨c, some [n], [.created o]⟩ (update f n (some (i, o)))
  | piped (k : Answers) (o : KernelObject) (n n' : Slot) (i : Entry)
    (hc : (SessionCall.pipe k).Creates net f o) (hn : f.Lowest 3 n) (hi : f.Vacant i)
    (hn' : Files.Lowest (update f n (some (i, o))) 3 n') :
    FilesStep net f ⟨.pipe k, some [n, n'], [.created o]⟩
      (update (update f n (some (i, o))) n' (some (i, o)))
  | full (c : SessionCall) (o : KernelObject) (hc : c.Creates net f o) (hfull : f.Full 3) :
    FilesStep net f ⟨c, none, c.undoing o ++ [.created o]⟩ f
  | refused (c : SessionCall) (hm : c.Makes) (hc : ∀ o, ¬ c.Creates net f o) :
    FilesStep net f ⟨c, none, []⟩ f
  | duplicated (c : SessionCall) (fd min : ℤ) (a : OpenFile) (n : Slot)
    (hc : c.Duplicates fd min) (ha : f.at' fd = some a) (hn : f.Lowest (max 3 min) n) :
    FilesStep net f ⟨c, some [n], []⟩ (update f n (some a))
  | unduplicated (c : SessionCall) (fd min : ℤ) (hc : c.Duplicates fd min)
    (hno : f.at' fd = none ∨ f.Full (max 3 min)) : FilesStep net f ⟨c, none, []⟩ f
  | badDuplicate (fd : ℤ) (arg : ℕ) (harg : MAX_OPEN_FILES ≤ arg) :
    FilesStep net f ⟨.use (.fcntl fd .F_DUPFD arg), none, []⟩ f
  | same (n : Slot) (r : ℤ) (h : f n ≠ none) :
    FilesStep net f ⟨.dup2 n.val n.val r, some [n], []⟩ f
  | placed (n n' : Slot) (r : ℤ) (a : OpenFile) (hne : n ≠ n') (h : f n = some a)
    (h' : f n' = none) :
    FilesStep net f ⟨.dup2 n.val n'.val r, some [n'], []⟩ (update f n' (some a))
  | replaced (n n' : Slot) (r : ℤ) (a : OpenFile) (calls : List KernelCall) (f' : Files)
    (hne : n ≠ n') (h : f n = some a) (h' : f.GivesUp n' r true calls f') :
    FilesStep net f ⟨.dup2 n.val n'.val r, some [n'], calls⟩ (update f' n' (some a))
  | unreplaced (n n' : Slot) (r : ℤ) (calls : List KernelCall) (hne : n ≠ n') (h : f n ≠ none)
    (h' : f.GivesUp n' r false calls f) : FilesStep net f ⟨.dup2 n.val n'.val r, none, calls⟩ f
  | badReplace (oldfd newfd r : ℤ) (h : f.at' oldfd = none ∨ slotOf newfd = none) :
    FilesStep net f ⟨.dup2 oldfd newfd r, none, []⟩ f
  | closed (n : Slot) (r : ℤ) (b : Bool) (calls : List KernelCall) (f' : Files)
    (h : f.GivesUp n r b calls f') :
    FilesStep net f ⟨.close n.val r, if b then some [] else none, calls⟩ f'
  | badClose (fd r : ℤ) (h : f.at' fd = none) : FilesStep net f ⟨.close fd r, none, []⟩ f
  | used (c : FdCall) (f' : Files) (hc : ¬ c.Duplicates) (hnone : ∀ n, f n = none → f' n = none)
    (hsome : ∀ n a, f n = some a → ∃ o, f' n = some (a.1, o) ∧ (o = a.2 ∨ Exchanged a.2 o)) :
    FilesStep net f ⟨.use c, some [], []⟩ f'

def Table.files (t : Table) : Files := fun n ↦ (t.fdmap n).map fun i ↦ (i, (t.pool i).object)

/-- No directory is opened as a file, FIOS gives no negative handle, a pipe that gets a descriptor
gets two, and the failures of the close routines are reported. -/
def SessionCall.Regular (net : NetErrno → ℤ) (s : Session) (c : SessionCall) : Prop :=
  c.Fits s ∧
    match c with
    | open' k _ _ => (0 ≤ k.dhOpen → 0 ≤ k.dh) ∧ (0 ≤ k.fhOpen → 0 ≤ k.fh)
    | pipe k => 0 ≤ k.msgPipe → Available s.table → TwoFree s.table
    | close fd r => InInt r ∧ Reports net s.table fd r
    | dup2 oldfd newfd r => InInt r ∧ ∀ sl i, openAt s.table oldfd = some (sl, i) →
        newfd ≠ sl.val → Reports net s.table newfd r
    | _ => True

inductive TableStep (net : NetErrno → ℤ) (s : Session) : Event → Session → Prop
  | call (c : SessionCall) {s' : Session} (calls : List KernelCall) (hok : c.Regular net s)
    (h : c.Runs net s s') (hcalls : s'.table.calls = calls ++ s.table.calls) :
    TableStep net s ⟨c, c.reply net s, calls⟩ s'

/-- What a call that makes a descriptor can do; `undone` is what it does to an object that gets
none. -/
inductive CreateOutcome (t : Table) (made : KernelObject → Prop)
    (undone : KernelObject → List KernelCall) : Except ℤ Slot × Table → Prop
  | refused (e : ℤ) (h : ∀ o, ¬ made o) : CreateOutcome t made undone (.error e, t)
  | full (e : ℤ) (o : KernelObject) (t' : Table) (h : made o)
    (hfull : ∀ n : Slot, 3 ≤ n.val → t.fdmap n ≠ none) (hfdmap : t'.fdmap = t.fdmap)
    (hpool : t'.pool = t.pool) (hcalls : t'.calls = undone o ++ [.created o] ++ t.calls) :
    CreateOutcome t made undone (.error e, t')
  | opened (o : KernelObject) (n : Slot) (i : Entry) (uid : ℤ) (type : DescriptorTypes)
    (h : made o) (hn : FirstFree t 3 n) (hi : (t.pool i).refCount = 0)
    (hobject : (⟨uid, type, 1⟩ : DescriptorTranslation).object = o) :
    CreateOutcome t made undone
      (.ok n, ((t.call (.created o)).setSlot n (some i)).setEntry i ⟨uid, type, 1⟩)

section Table

variable {net : NetErrno → ℤ} {t t' : Table} {o : KernelObject} {i : Entry} {n n' : Slot}
  {a : OpenFile} {fd min r e uid : ℤ} {type : DescriptorTypes} {k : Answers}
  {made : KernelObject → Prop} {undone : KernelObject → List KernelCall} {undo : Table → Table}

theorem files_some (h : t.fdmap n = some i) : t.files n = some (i, (t.pool i).object) := by
  rw [Table.files, h]
  rfl

theorem files_eq_none : t.files n = none ↔ t.fdmap n = none := Option.map_eq_none_iff

theorem files_eq_some : t.files n = some a ↔ t.fdmap n = some a.1 ∧ (t.pool a.1).object = a.2 := by
  obtain ⟨i, o⟩ := a
  rw [Table.files, Option.map_eq_some_iff]
  constructor
  · rintro ⟨j, hj, heq⟩
    obtain ⟨rfl, rfl⟩ := Prod.mk.inj heq
    exact ⟨hj, rfl⟩
  · rintro ⟨hi, ho⟩
    exact ⟨i, hi, Prod.ext rfl ho⟩

theorem files_congr (hfdmap : t'.fdmap = t.fdmap)
    (hobject : ∀ n i, t.fdmap n = some i → (t'.pool i).object = (t.pool i).object) :
    t'.files = t.files := by
  funext n
  cases hn : t.fdmap n with
  | none =>
    rw [files_eq_none.mpr hn, files_eq_none, hfdmap]
    exact hn
  | some i =>
    rw [files_some hn, files_some (hfdmap ▸ hn), hobject n i hn]

theorem files_setSlot (n : Slot) (v : Option Entry) :
    (t.setSlot n v).files = update t.files n (v.map fun i ↦ (i, (t.pool i).object)) := by
  funext m
  by_cases hm : m = n
  · subst hm
    rw [Function.update_self, Table.files, Table.setSlot_fdmap, Function.update_self]
    rfl
  · rw [Function.update_of_ne hm, Table.files, Table.setSlot_fdmap, Function.update_of_ne hm]
    rfl

theorem files_addRef (i : Entry) (k : ℤ) : (t.addRef i k).files = t.files :=
  files_congr rfl fun _ j _ ↦ object_addRef k i j

theorem files_share (i : Entry) (k : ℤ) :
    ((t.setSlot n (some i)).addRef i k).files =
      update t.files n (some (i, (t.pool i).object)) := by
  rw [files_addRef, files_setSlot]
  rfl

theorem files_at : t.files.at' fd = (openAt t fd).map fun p ↦ (p.2, (t.pool p.2).object) := by
  unfold Files.at' openAt Table.files
  cases slotOf fd with
  | none => rfl
  | some n =>
    rw [Option.bind_some, Option.bind_some, Option.map_map]
    rfl

theorem files_at_none : t.files.at' fd = none ↔ openAt t fd = none := by
  rw [files_at, Option.map_eq_none_iff]

theorem FirstFree.lowest (h : FirstFree t min n) : t.files.Lowest min n := by
  refine ⟨⟨h.above, files_eq_none.mpr h.free⟩, fun m hm ↦ ?_⟩
  exact not_lt.mp fun hlt ↦ h.least m hm.1 hlt (files_eq_none.mp hm.2)

theorem full_files (h : ∀ n : Slot, min ≤ n.val → t.fdmap n ≠ none) : t.files.Full min :=
  fun n hn hfree ↦ h n hn (files_eq_none.mp hfree)

theorem Counts.vacant (hc : Counts t fun _ ↦ 0) (hi : (t.pool i).refCount = 0) :
    t.files.Vacant i := by
  rintro n a ha rfl
  exact hc.unused hi n (files_eq_some.mp ha).1

theorem Counts.entries (hc : Counts t fun _ ↦ 0) (h : ∀ i, (t.pool i).refCount ≠ 0) (n : Slot) :
    t.fdmap n ≠ none := by
  refine refs_full le_rfl (fun i ↦ Nat.pos_of_ne_zero fun hzero ↦ h i ?_) n
  rw [hc i, hzero]
  rfl

theorem files_opened (hc : Counts t fun _ ↦ 0) (hi : (t.pool i).refCount = 0)
    (hobject : (⟨uid, type, 1⟩ : DescriptorTranslation).object = o) (o' : KernelObject) :
    (((t.call (.created o')).setSlot n (some i)).setEntry i ⟨uid, type, 1⟩).files =
      update t.files n (some (i, o)) := by
  funext m
  by_cases hm : m = n
  · subst hm
    have hself : (((t.call (.created o')).setSlot m (some i)).setEntry i ⟨uid, type, 1⟩).fdmap m =
        some i := Function.update_self ..
    rw [files_some hself, Function.update_self, Table.setEntry_pool, Function.update_self, hobject]
  · rw [Function.update_of_ne hm]
    have hother : (((t.call (.created o')).setSlot n (some i)).setEntry i
        ⟨uid, type, 1⟩).fdmap m = t.fdmap m := Function.update_of_ne hm _ _
    cases hj : t.fdmap m with
    | none => rw [files_eq_none.mpr hj, files_eq_none, hother, hj]
    | some j =>
      have hne : j ≠ i := by
        rintro rfl
        exact hc.unused hi m hj
      rw [files_some hj, files_some (hother.trans hj), Table.setEntry_pool,
        Function.update_of_ne hne]
      rfl

theorem install_lowest (h : install t uid type undo = (.ok n, t')) : FirstFree t 3 n := by
  have hout := acquireDescriptor_outcome t
  unfold install at h
  generalize acquireDescriptor t = res at hout h
  cases hout with
  | full => cases (Prod.mk.inj h).1
  | taken s i hs =>
    cases (Prod.mk.inj h).1
    exact hs

theorem install_refused (hc : Counts t fun _ ↦ 0)
    (h : install t uid type undo = (.error e, t')) (n : Slot) (hn : 3 ≤ n.val) :
    t.fdmap n ≠ none := by
  have hout := acquireDescriptor_outcome t
  unfold install at h
  generalize acquireDescriptor t = res at hout h
  cases hout with
  | full hfull => exact hfull.elim (· n hn) (hc.entries · n)
  | taken => cases (Prod.mk.inj h).1

theorem install_create (hc : Counts t fun _ ↦ 0) (h : made o)
    (hobject : (⟨uid, type, 1⟩ : DescriptorTranslation).object = o)
    (hundo : ∀ t, (undo t).fdmap = t.fdmap ∧ (undo t).pool = t.pool ∧
      (undo t).calls = undone o ++ t.calls) :
    CreateOutcome t made undone (install (t.call (.created o)) uid type undo) := by
  rcases install_outcome (t.call (.created o)) uid type with hfull | ⟨n, i, -, hi, hok⟩
  · rw [hfull]
    obtain ⟨hfdmap, hpool, hcalls⟩ := hundo (t.call (.created o))
    refine .full EMFILE o _ h (install_refused (t := t.call (.created o)) hc (hfull undo)) hfdmap
      hpool (hcalls.trans ?_)
    exact (List.append_assoc (undone o) [.created o] t.calls).symm
  · rw [hok]
    have hn := install_lowest (hok undo)
    exact .opened o n i uid type h ⟨hn.above, hn.free, hn.least⟩ hi hobject

theorem opened_create (hc : Counts t fun _ ↦ 0) {ret handle : ℤ} (e : ℤ → ℤ)
    (type : DescriptorTypes) (close : ℤ → KernelObject) (hpos : 0 ≤ ret → 0 ≤ handle)
    (hmade : ∀ o', made o' ↔ 0 ≤ ret ∧ o' = o)
    (hobject : (⟨handle, type, 1⟩ : DescriptorTranslation).object = o)
    (hundone : 0 ≤ ret → undone o = [.close (close handle) r]) {res : ℤ × Table}
    (hres : res = Descriptor.opened t ret handle o) :
    CreateOutcome t made undone (if res.1 < 0 then (.error (e res.1), res.2)
      else install res.2 res.1 type fun t ↦ t.call (.close (close res.1) r)) := by
  subst hres
  unfold Descriptor.opened
  by_cases hret : ret < 0
  · simp only [if_pos hret]
    exact .refused _ fun o' ho' ↦ absurd ((hmade o').mp ho').1 (not_le.mpr hret)
  · have hret' := not_lt.mp hret
    simp only [if_neg hret, if_neg (not_lt.mpr (hpos hret'))]
    exact install_create hc ((hmade o).mpr ⟨hret', rfl⟩) hobject fun t ↦
      ⟨rfl, rfl, congrArg (· ++ t.calls) (hundone hret').symm⟩

theorem open_create (hc : Counts t fun _ ↦ 0) (net : NetErrno → ℤ) (fullPath : Except ℤ String)
    {flags : BitVec 32}
    (hdir : fullPath.isOk → isDir k = 0 → 0 ≤ k.fhOpen → flags &&& O_DIRECTORY ≠ 0)
    (hdh : 0 ≤ k.dhOpen → 0 ≤ k.dh) (hfh : 0 ≤ k.fhOpen → 0 ≤ k.fh) :
    CreateOutcome t (fun o ↦ Opens net k fullPath flags ∧ o = openedObject k flags)
      (fun o ↦ [.close o k.close]) (open' net t k fullPath flags) := by
  cases fullPath with
  | error e => exact .refused e fun o ho ↦ by cases ho.1.1.choose_spec
  | ok p =>
    replace hdir := hdir rfl
    unfold open'
    extract_lets dir errno
    by_cases hboth : isDir k = 0 ∧ flags &&& O_DIRECTORY ≠ 0
    · have hobject : openedObject k flags = .directory k.dh := if_pos hboth
      by_cases hcreate : flags &&& O_CREAT ≠ 0 ∧ k.dirCreate < 0 ∧ errno ≠ EEXIST
      · rw [if_pos ⟨hboth.1, hboth.2, hcreate⟩]
        refine .refused errno fun o ho ↦ ?_
        exact hcreate.2.2 (((opens_directory p hboth).mp ho.1).1 hcreate.1 hcreate.2.1)
      · rw [if_neg fun hall ↦ hcreate hall.2.2]
        have hgo : flags &&& O_CREAT ≠ 0 → k.dirCreate < 0 →
            sceErrnoToErrno net k.dirCreate .FIOS = EEXIST := fun h₁ h₂ ↦ by
          by_contra h₃
          exact hcreate ⟨h₁, h₂, h₃⟩
        refine opened_create (o := .directory k.dh) hc (sceErrnoToErrno net · .FIOS)
          (if dir then .DIRECTORY else .FILE)
          (fun ret ↦ if dir then .directory ret else .file ret) hdh (fun o ↦ ?_) ?_ (fun _ ↦ ?_)
          (if_pos hboth)
        · rw [opens_directory p hboth, hobject]
          exact and_congr_left fun _ ↦ and_iff_right hgo
        · rw [if_pos (show dir from hboth.1)]
          rfl
        · rw [if_pos (show dir from hboth.1)]
    · have hobject : openedObject k flags = .file k.fh := if_neg hboth
      rw [if_neg fun hall ↦ hboth ⟨hall.1, hall.2.1⟩]
      by_cases hisdir : isDir k = 0
      · -- a directory is not opened as a file
        have hret : k.fhOpen < 0 := not_le.mp fun hopen ↦ hboth ⟨hisdir, hdir hisdir hopen⟩
        have hopened : Descriptor.opened t k.fhOpen k.fh (.file k.fh) = (k.fhOpen, t) :=
          if_pos hret
        rw [if_neg hboth, hopened]
        dsimp only
        rw [if_pos hret]
        exact .refused _ fun o ho ↦ absurd ((opens_file p hboth).mp ho.1) (not_le.mpr hret)
      · refine opened_create (o := .file k.fh) hc (sceErrnoToErrno net · .FIOS)
          (if dir then .DIRECTORY else .FILE)
          (fun ret ↦ if dir then .directory ret else .file ret) hfh (fun o ↦ ?_) ?_ (fun _ ↦ ?_)
          (if_neg hboth)
        · rw [opens_file p hboth, hobject]
        · rw [if_neg (show ¬ dir from hisdir)]
          rfl
        · rw [if_neg (show ¬ dir from hisdir)]

theorem socket_create (hc : Counts t fun _ ↦ 0) (net : NetErrno → ℤ) (k : Answers) :
    CreateOutcome t (fun o ↦ 0 ≤ k.netSocket ∧ o = .socket k.netSocket) (fun _ ↦ [])
      (socket net t k) := by
  unfold socket
  extract_lets res
  by_cases hres : res < 0
  · rw [if_pos hres]
    exact .refused _ fun o ho ↦ absurd ho.1 (not_le.mpr hres)
  · rw [if_neg hres]
    exact install_create (o := .socket res) hc ⟨not_lt.mp hres, rfl⟩ rfl fun _ ↦ ⟨rfl, rfl, rfl⟩

theorem accept_create (hc : Counts t fun _ ↦ 0) (net : NetErrno → ℤ) (k : Answers) (fd : ℤ) :
    CreateOutcome t (fun o ↦ t.files.at' fd ≠ none ∧ 0 ≤ k.netAccept ∧ o = .socket k.netAccept)
      (fun _ ↦ []) (accept net t k fd) := by
  have hout := fdGrab_outcome t fd
  unfold accept
  generalize fdGrab t fd = res at hout ⊢
  cases hout with
  | refused h =>
    exact .refused _ fun o ho ↦ ho.1 (files_at_none.mpr h)
  | grabbed n i h =>
    have hi := hc.inUse n i (openAt_eq_some.mp h).2
    have hat : t.files.at' fd ≠ none := files_at_none.not.mpr (h ▸ Option.some_ne_none _)
    dsimp only
    by_cases hres : k.netAccept < 0
    · rw [if_pos hres, if_pos hres, fdDrop_grabbed hi]
      exact .refused _ fun o ho ↦ absurd ho.2.1 (not_le.mpr hres)
    · have hdrop : (fdDrop net ((t.addRef i 1).call (.created (.socket k.netAccept))) i k.close).2 =
          t.call (.created (.socket k.netAccept)) :=
        fdDrop_grabbed (t := t.call (.created (.socket k.netAccept))) hi
      rw [if_neg hres, if_neg hres, hdrop]
      exact install_create (o := .socket k.netAccept) hc ⟨hat, not_lt.mp hres, rfl⟩ rfl
        fun _ ↦ ⟨rfl, rfl, rfl⟩

theorem CreateOutcome.step (hc : Counts t fun _ ↦ 0) {c : SessionCall} (hm : c.Makes)
    (hp : ∀ k, c ≠ .pipe k) {res : Except ℤ Slot × Table}
    (h : CreateOutcome t (c.Creates net t.files) c.undoing res) {calls : List KernelCall}
    (hcalls : res.2.calls = calls ++ t.calls) :
    Counts res.2 (fun _ ↦ 0) ∧
      FilesStep net t.files ⟨c, res.1.toOption.map ([·]), calls⟩ res.2.files := by
  cases h with
  | refused e hno =>
    obtain rfl := List.self_eq_append_left.mp hcalls
    exact ⟨hc, .refused c hm hno⟩
  | full e o t' ho hfull hfdmap hpool hlog =>
    have hfiles : t'.files = t.files := files_congr hfdmap fun n i _ ↦ by rw [hpool]
    obtain rfl := List.append_cancel_right (hlog.symm.trans hcalls)
    rw [hfiles]
    refine ⟨fun i ↦ ?_, .full c o ho (full_files fun n hn ↦ hfull n (by omega))⟩
    rw [hfdmap, hpool]
    exact hc i
  | opened o n i uid type ho hn hi hobject =>
    have hlog : [.created o] ++ t.calls = calls ++ t.calls := hcalls
    obtain rfl := List.append_cancel_right hlog
    rw [files_opened hc hi hobject]
    exact ⟨hc.opened hn.free hi o uid type, .opened c hp o n i ho hn.lowest (hc.vacant hi)⟩

theorem files_cleared (honly : ∀ m, t.fdmap m = some i → m = n) (d : DescriptorTranslation) :
    ((t.setEntry i d).setSlot n none).files = update t.files n none := by
  rw [files_setSlot]
  funext m
  by_cases hm : m = n
  · subst hm
    rw [Function.update_self, Function.update_self]
    rfl
  · rw [Function.update_of_ne hm, Function.update_of_ne hm]
    unfold Table.files
    cases hj : t.fdmap m with
    | none => rw [Table.setEntry_fdmap, hj]; rfl
    | some j =>
      have hne : j ≠ i := by
        rintro rfl
        exact hm (honly m hj)
      rw [Table.setEntry_fdmap, hj, Option.map_some, Table.setEntry_pool,
        Function.update_of_ne hne]
      rfl

inductive Gone (t : Table) (fd r : ℤ) : ℤ × Table → Prop
  | refused (h : openAt t fd = none) : Gone t fd r (-1, t)
  | given (n : Slot) (calls : List KernelCall) (t' : Table) (hfd : fd = n.val)
    (h : t.files.GivesUp n r true calls t'.files) (hcalls : t'.calls = calls ++ t.calls)
    (hfree : t'.fdmap n = none) : Gone t fd r (0, t')
  | kept (n : Slot) (calls : List KernelCall) (t' : Table) (hfd : fd = n.val)
    (h : t.files.GivesUp n r false calls t.files) (hcalls : t'.calls = calls ++ t.calls)
    (hfdmap : t'.fdmap = t.fdmap) (hfiles : t'.files = t.files) : Gone t fd r (-1, t')

theorem ReleaseOutcome.gone (hc : Counts t fun _ ↦ 0) {res : ℤ × Table}
    (h : ReleaseOutcome net t fd r res) (h32 : InInt r) (hrep : Reports net t fd r) :
    Gone t fd r res := by
  cases h with
  | refused h => exact .refused h
  | shared n i hopen href =>
    obtain ⟨rfl, hn⟩ := openAt_eq_some.mp hopen
    obtain ⟨m, hm, hslot⟩ := hc.second hn href
    refine .given n [] _ rfl ?_ rfl (Function.update_self ..)
    rw [files_setSlot, files_addRef]
    exact .shared _ m (files_some hn) hm (files_some hslot)
  | closed n i hopen href hr =>
    obtain ⟨rfl, hn⟩ := openAt_eq_some.mp hopen
    have honly : ∀ m, t.fdmap m = some i → m = n := fun m hm ↦ hc.only href hn hm
    refine .given n [.close (t.pool i).object r] _ rfl ?_ rfl (Function.update_self ..)
    rw [files_cleared (t := t.call (.close (t.pool i).object r)) honly]
    exact .last _ (files_some hn) (fun m hm ↦ honly m (files_eq_some.mp hm).1) hr
  | failed n i hopen href hr =>
    obtain ⟨rfl, hn⟩ := openAt_eq_some.mp hopen
    refine .kept n [.close (t.pool i).object r] _ rfl ?_ rfl rfl rfl
    exact .failed _ (files_some hn) (fun m hm ↦ hc.only href hn (files_eq_some.mp hm).1) hr
  | lost n i hopen href hr hno => exact absurd (hrep n i hopen href hr) (hno h32)

theorem close_step (hc : Counts t fun _ ↦ 0) {res : ℤ × Table}
    (h : ReleaseOutcome net t fd r res) (h32 : InInt r) (hrep : Reports net t fd r)
    {calls : List KernelCall} (hcalls : res.2.calls = calls ++ t.calls) :
    FilesStep net t.files ⟨.close fd r, if res.1 < 0 then none else some [], calls⟩
      res.2.files := by
  cases h.gone hc h32 hrep with
  | refused hno =>
    obtain rfl := List.self_eq_append_left.mp hcalls
    exact .badClose fd r (files_at_none.mpr hno)
  | given n calls' t' hfd hgives hlog =>
    subst hfd
    obtain rfl := List.append_cancel_right (hlog.symm.trans hcalls)
    exact .closed n r true calls' _ hgives
  | kept n calls' t' hfd hgives hlog _ hfiles =>
    subst hfd
    obtain rfl := List.append_cancel_right (hlog.symm.trans hcalls)
    rw [hfiles]
    exact .closed n r false calls' _ hgives

theorem DuplicateOutcome.step (net : NetErrno → ℤ) {c : SessionCall} {minfd : ℤ}
    (hc : c.Duplicates fd minfd) {res : Except (Option ℤ) Slot × Table}
    (h : DuplicateOutcome t fd minfd res) : res.2.calls = t.calls ∧
      FilesStep net t.files ⟨c, res.1.toOption.map ([·]), []⟩ res.2.files := by
  cases h with
  | refused h => exact ⟨rfl, .unduplicated c fd minfd hc (.inl (files_at_none.mpr h))⟩
  | full n i h hfull => exact ⟨rfl, .unduplicated c fd minfd hc (.inr (full_files hfull))⟩
  | shared n i h n' hn' =>
    refine ⟨rfl, ?_⟩
    rw [files_share]
    refine .duplicated c fd minfd _ n' hc ?_ hn'.lowest
    rw [files_at, h]
    rfl

theorem dup2_step (hc : Counts t fun _ ↦ 0) {oldfd newfd : ℤ} (h32 : InInt r)
    (hrep : ∀ sl i, openAt t oldfd = some (sl, i) → newfd ≠ sl.val → Reports net t newfd r)
    {calls : List KernelCall} (hcalls : (dup2 net t oldfd newfd r).2.calls = calls ++ t.calls) :
    Counts (dup2 net t oldfd newfd r).2 (fun _ ↦ 0) ∧ FilesStep net t.files
      ⟨.dup2 oldfd newfd r, (dup2 net t oldfd newfd r).1.toOption.map ([·]), calls⟩
      (dup2 net t oldfd newfd r).2.files := by
  unfold dup2 at hcalls ⊢
  cases hslot : slotOf newfd with
  | none =>
    rw [hslot] at hcalls
    obtain rfl := List.self_eq_append_left.mp hcalls
    exact ⟨hc, .badReplace oldfd newfd r (.inr hslot)⟩
  | some n' =>
    obtain rfl := slotOf_some hslot
    rw [hslot] at hcalls
    have hout := duplicateDescriptor2_outcome net t oldfd n' r
    have hrep' : ∀ sl i, openAt t oldfd = some (sl, i) → sl ≠ n' → Reports net t n'.val r :=
      fun sl i hopen hne ↦ hrep sl i hopen fun heq ↦ hne (Fin.ext (by omega))
    have hcounts := hc.duplicate2 hout (fun _ ↦ h32) hrep'
    dsimp only at hcalls ⊢
    generalize duplicateDescriptor2 net t oldfd n' r = res at hout hcounts hcalls ⊢
    cases hout with
    | refused h =>
      obtain rfl := List.self_eq_append_left.mp hcalls
      exact ⟨hc, .badReplace oldfd _ r (.inl (files_at_none.mpr h))⟩
    | same i h =>
      obtain rfl := List.self_eq_append_left.mp hcalls
      obtain ⟨rfl, hn⟩ := openAt_eq_some.mp h
      refine ⟨hc, .same n' r ?_⟩
      rw [files_some hn]
      exact Option.some_ne_none _
    | busy n i h hne res hres hbusy =>
      obtain ⟨rfl, hn⟩ := openAt_eq_some.mp h
      have hopen : t.files n ≠ none := files_eq_none.not.mpr (hn ▸ Option.some_ne_none i)
      refine ⟨hcounts, ?_⟩
      cases hres.gone hc h32 (hrep' n i h hne) with
      | refused hno => exact absurd (openAt_slot.mp hno) hbusy
      | given m calls' t' hfd _ _ hfree =>
        obtain rfl : n' = m := Fin.ext (by omega)
        exact absurd hfree hbusy
      | kept m calls' t' hfd hgives hlog _ hfiles =>
        obtain rfl : n' = m := Fin.ext (by omega)
        obtain rfl := List.append_cancel_right (hlog.symm.trans hcalls)
        rw [hfiles]
        exact .unreplaced n n' r calls' hne hopen hgives
    | moved n i h hne res hres hfree =>
      obtain ⟨rfl, hn⟩ := openAt_eq_some.mp h
      have hn' := (releaseDescriptor_fdmap hres fun heq ↦ hne (Fin.ext (by omega))).trans hn
      refine ⟨hcounts, ?_⟩
      cases hres.gone hc h32 (hrep' n i h hne) with
      | refused hno =>
        obtain rfl := List.self_eq_append_left.mp hcalls
        rw [files_share]
        exact .placed n n' r _ hne (files_some hn) (files_eq_none.mpr hfree)
      | given m calls' t' hfd hgives hlog =>
        obtain rfl : n' = m := Fin.ext (by omega)
        obtain rfl := List.append_cancel_right (hlog.symm.trans hcalls)
        have hkeep := hgives.other hne
        rw [files_some hn, files_some hn'] at hkeep
        rw [files_share, Option.some.inj hkeep]
        exact .replaced n n' r _ calls' _ hne (files_some hn) hgives
      | kept m calls' t' hfd hgives _ hfdmap =>
        obtain rfl : n' = m := Fin.ext (by omega)
        exact absurd (files_eq_none.mpr (hfdmap ▸ hfree)) hgives.used

theorem secondEnd_step {res : Except ℤ (Slot × Slot) × Table}
    (hres : secondEnd t' n undo = res) (hc : Counts t' fun _ ↦ 0)
    (ho : (SessionCall.pipe k).Creates net t.files o) (hn : t.files.Lowest 3 n)
    (hi : t.files.Vacant i) (hslots : t'.fdmap = update t.fdmap n (some i))
    (hfiles : t'.files = update t.files n (some (i, o)))
    (hlog : t'.calls = [.created o] ++ t.calls) (htwo : TwoFree t) {calls : List KernelCall}
    (hcalls : res.2.calls = calls ++ t.calls) :
    Counts res.2 (fun _ ↦ 0) ∧ FilesStep net t.files
      ⟨.pipe k, res.1.toOption.map fun p ↦ [p.1, p.2], calls⟩ res.2.files := by
  obtain ⟨n', hn', hok⟩ := secondEnd_ok hslots htwo undo
  have hself : (t'.pool i).object = o := by
    have hslot : t'.fdmap n = some i := by rw [hslots, Function.update_self]
    have hentry := files_some hslot
    rw [hfiles, Function.update_self] at hentry
    exact (Prod.mk.inj (Option.some.inj hentry)).2.symm
  obtain rfl := hok.symm.trans hres
  obtain rfl := List.append_cancel_right (hlog.symm.trans hcalls)
  refine ⟨hc.setSlot_some hn'.free, ?_⟩
  dsimp only
  rw [files_share, hself, hfiles]
  exact .piped k o n n' i ho hn hi (hfiles ▸ hn'.lowest)

theorem pipe_step (hc : Counts t fun _ ↦ 0) (htwo : 0 ≤ k.msgPipe → Available t → TwoFree t)
    {calls : List KernelCall} (hcalls : (pipe net t k).2.calls = calls ++ t.calls) :
    Counts (pipe net t k).2 (fun _ ↦ 0) ∧ FilesStep net t.files
      ⟨.pipe k, (pipe net t k).1.toOption.map fun p ↦ [p.1, p.2], calls⟩
      (pipe net t k).2.files := by
  by_cases hret : k.msgPipe < 0
  · have hpipe : pipe net t k = (.error (sceErrnoToErrno net k.msgPipe .GENERIC), t) := if_pos hret
    rw [hpipe] at hcalls ⊢
    obtain rfl := List.self_eq_append_left.mp hcalls
    exact ⟨hc, .refused _ trivial fun o ho ↦ absurd ho.1 (not_le.mpr hret)⟩
  · have hmade : (SessionCall.pipe k).Creates net t.files (.msgPipe k.msgPipe) :=
      ⟨not_lt.mp hret, rfl⟩
    obtain ⟨undo, hundo, herror, hok⟩ : ∃ undo : Table → Table,
        (∀ t, (undo t).fdmap = t.fdmap ∧ (undo t).pool = t.pool ∧
          (undo t).calls = (SessionCall.pipe k).undoing (.msgPipe k.msgPipe) ++ t.calls) ∧
        (∀ e t', install (t.call (.created (.msgPipe k.msgPipe))) k.msgPipe .PIPE undo =
          (.error e, t') → pipe net t k = (.error e, t')) ∧
        ∀ fd t', install (t.call (.created (.msgPipe k.msgPipe))) k.msgPipe .PIPE undo =
          (.ok fd, t') → pipe net t k = secondEnd t' fd undo := by
      refine ⟨fun t ↦ t.call (.close (.msgPipe k.msgPipe) k.close), fun _ ↦ ⟨rfl, rfl, rfl⟩, ?_,
        ?_⟩
      · intro e t' hinstall
        refine (if_neg hret).trans ?_
        rw [hinstall]
      · intro fd t' hinstall
        refine (if_neg hret).trans ?_
        rw [hinstall]
    have hobject : (⟨k.msgPipe, .PIPE, 1⟩ : DescriptorTranslation).object = .msgPipe k.msgPipe :=
      rfl
    have hout := install_create hc hmade hobject hundo
    generalize hinstall : install (t.call (.created (.msgPipe k.msgPipe))) k.msgPipe .PIPE undo =
      res at hout
    cases hout with
    | refused e hno => exact absurd hmade (hno _)
    | full e o t' ho hfull hfdmap hpool hlog =>
      have hfiles : t'.files = t.files := files_congr hfdmap fun n i _ ↦ by rw [hpool]
      rw [herror e t' hinstall] at hcalls ⊢
      obtain rfl := List.append_cancel_right (hlog.symm.trans hcalls)
      rw [hfiles]
      refine ⟨fun i ↦ ?_, .full _ o ho (full_files fun n hn ↦ hfull n (by omega))⟩
      rw [hfdmap, hpool]
      exact hc i
    | opened o n i uid type ho hn hi hobject =>
      have hcounts := hc.opened hn.free hi o uid type
      have hfiles := files_opened (n := n) hc hi hobject o
      have hslots : (((t.call (.created o)).setSlot n (some i)).setEntry i ⟨uid, type, 1⟩).fdmap =
          update t.fdmap n (some i) := rfl
      have hlog : (((t.call (.created o)).setSlot n (some i)).setEntry i ⟨uid, type, 1⟩).calls =
          [.created o] ++ t.calls := rfl
      have htwo' : TwoFree t := htwo ho.1 (firstFree_taken hn hi)
      rw [hok n _ hinstall] at hcalls ⊢
      generalize hres : secondEnd _ n undo = res at hcalls ⊢
      exact secondEnd_step hres hcounts ho hn.lowest (hc.vacant hi) hslots hfiles hlog htwo' hcalls

end Table

section Sessions

variable {net : NetErrno → ℤ} {s s' : Session} {e : Event}

theorem quiet_step {t t' : Table} {c : FdCall} (hc : ¬ c.Duplicates) (h : Quiet t t') :
    FilesStep net t.files ⟨.use c, some [], []⟩ t'.files := by
  refine .used c _ hc (fun n hn ↦ ?_) fun n a ha ↦ ?_
  · rw [files_eq_none, h.fdmap]
    exact files_eq_none.mp hn
  · obtain ⟨hslot, hobject⟩ := files_eq_some.mp ha
    refine ⟨(t'.pool a.1).object, files_some (h.fdmap ▸ hslot), ?_⟩
    rw [← hobject]
    exact h.object n a.1 hslot

theorem reply_used {c : FdCall} (hc : ¬ c.Duplicates) :
    (SessionCall.use c).reply net s = some [] := by
  cases c with
  | fcntl fd cmd arg => cases cmd <;> first | rfl | exact absurd rfl hc
  | _ => rfl

theorem TableStep.files (hsane : Sane s) (hc : Counts s.table fun _ ↦ 0)
    (h : TableStep net s e s') : Sane s' ∧ Counts s'.table (fun _ ↦ 0) ∧
      FilesStep net s.table.files e s'.table.files := by
  cases h with
  | call c calls hok hruns hcalls =>
    refine ⟨SessionCall.sane hsane hok.1 hruns, ?_⟩
    cases hruns with
    | open' k fullPath flags =>
      exact (open_create hc net fullPath hok.1 hok.2.1 hok.2.2).step hc
        (c := .open' k fullPath flags) trivial (fun _ h ↦ nomatch h) hcalls
    | socket k =>
      exact (socket_create hc net k).step hc (c := .socket k) trivial (fun _ h ↦ nomatch h) hcalls
    | accept k fd =>
      exact (accept_create hc net k fd).step hc (c := .accept k fd) trivial
        (fun _ h ↦ nomatch h) hcalls
    | pipe k => exact pipe_step hc hok.2 hcalls
    | dup fd =>
      have hout := duplicateDescriptor_outcome s.table fd 0
      have hdup : (SessionCall.dup fd).Duplicates fd 0 := ⟨rfl, rfl⟩
      obtain ⟨hlog, hstep⟩ := hout.step net hdup
      obtain rfl := List.self_eq_append_left.mp (hlog.symm.trans hcalls)
      exact ⟨hc.duplicate hout, hstep⟩
    | dup2 oldfd newfd r => exact dup2_step hc hok.2.1 hok.2.2 hcalls
    | close fd r =>
      have hout := releaseDescriptor_outcome net s.table fd r
      exact ⟨hc.release hout (fun _ ↦ hok.2.1) hok.2.2, close_step hc hout hok.2.1 hok.2.2 hcalls⟩
    | use c K k k' out _ hrun =>
      by_cases hdup : c.Duplicates
      · obtain ⟨fd, arg, rfl, htable⟩ := FdCall.dupfd hdup hrun
        rw [htable] at hcalls ⊢
        by_cases harg : MAX_OPEN_FILES ≤ arg
        · have hreply : (SessionCall.use (.fcntl fd .F_DUPFD arg)).reply net s = none := if_pos harg
          rw [if_pos harg] at hcalls ⊢
          obtain rfl := List.self_eq_append_left.mp hcalls
          rw [hreply]
          exact ⟨hc, .badDuplicate fd arg harg⟩
        · have hreply : (SessionCall.use (.fcntl fd .F_DUPFD arg)).reply net s =
              (duplicateDescriptor s.table fd arg).1.toOption.map ([·]) := if_neg harg
          have hout := duplicateDescriptor_outcome s.table fd arg
          have hdup : (SessionCall.use (.fcntl fd .F_DUPFD arg)).Duplicates fd arg :=
            ⟨rfl, rfl, not_le.mp harg⟩
          obtain ⟨hlog, hstep⟩ := hout.step net hdup
          rw [if_neg harg] at hcalls ⊢
          obtain rfl := List.self_eq_append_left.mp (hlog.symm.trans hcalls)
          rw [hreply]
          exact ⟨hc.duplicate hout, hstep⟩
      · have hquiet := FdCall.quiet hc hsane hdup hok.1 hrun
        obtain rfl := List.self_eq_append_left.mp (hquiet.calls.symm.trans hcalls)
        rw [reply_used hdup]
        exact ⟨hquiet.counts, quiet_step hdup hquiet⟩

end Sessions

end SceLibcPosix.Descriptor
