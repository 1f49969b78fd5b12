import SceLibcPosix.Descriptor.Runs

namespace SceLibcPosix.Descriptor

open Errno VitaError References

def O_CREAT : BitVec 32 := 0x200
def O_DIRECTORY : BitVec 32 := 0x200000

/-- What the kernel answers during one call. `dh` and `fh` are the handles that the open routines
store; `close` is what the close routine of an error path returns. -/
structure Answers where
  stat : ℤ
  isDirectory : Bool
  dirCreate : ℤ
  dhOpen : ℤ
  dh : ℤ
  fhOpen : ℤ
  fh : ℤ
  netSocket : ℤ
  netAccept : ℤ
  msgPipe : ℤ
  close : ℤ
deriving DecidableEq, Repr

def isDir (k : Answers) : ℤ :=
  if k.stat < 0 then k.stat
  else if !k.isDirectory then makeSceErrno ENOTDIR
  else 0

/-- The end of the calls that have created an object: they take a descriptor for it, or undo what
they have done. -/
def install (t : Table) (uid : ℤ) (type : DescriptorTypes) (undo : Table → Table) :
    Except ℤ Slot × Table :=
  match acquireDescriptor t with
  | (none, t) => (.error EMFILE, undo t)
  | (some fd, t) => (.ok fd, t.fillSlot fd uid type)

def opened (t : Table) (ret handle : ℤ) (o : KernelObject) : ℤ × Table :=
  if ret < 0 then (ret, t) else (handle, t.call (.created o))

/-- `open`, from the result of `__realpath` on. -/
def open' (net : NetErrno → ℤ) (t : Table) (k : Answers) (fullPath : Except ℤ String)
    (flags : BitVec 32) : Except ℤ Slot × Table :=
  match fullPath with
  | .error e => (.error e, t)
  | .ok _ =>
    let dir := isDir k = 0
    let errno := sceErrnoToErrno net k.dirCreate .FIOS
    if dir ∧ flags &&& O_DIRECTORY ≠ 0 ∧ flags &&& O_CREAT ≠ 0 ∧ k.dirCreate < 0 ∧
        errno ≠ EEXIST then
      (.error errno, t)
    else
      let (ret, t) := if dir ∧ flags &&& O_DIRECTORY ≠ 0
        then opened t k.dhOpen k.dh (.directory k.dh)
        else opened t k.fhOpen k.fh (.file k.fh)
      if ret < 0 then (.error (sceErrnoToErrno net ret .FIOS), t)
      else
        install t ret (if dir then .DIRECTORY else .FILE)
          fun t ↦ t.call (.close (if dir then .directory ret else .file ret) k.close)

/-- `socket`. The result of `_net_init` is not looked at. -/
def socket (net : NetErrno → ℤ) (t : Table) (k : Answers) : Except ℤ Slot × Table :=
  let res := k.netSocket
  if res < 0 then (.error (scenetErrnoToErrno net res), t)
  else install (t.call (.created (.socket res))) res .SOCKET id

def accept (net : NetErrno → ℤ) (t : Table) (k : Answers) (s : ℤ) : Except ℤ Slot × Table :=
  match fdGrab t s with
  | (none, t) => (.error EBADF, t)
  | (some i, t) =>
    let res := k.netAccept
    let t := if res < 0 then t else t.call (.created (.socket res))
    let t := (fdDrop net t i k.close).2
    if res < 0 then (.error (scenetErrnoToErrno net res), t)
    else install t res .SOCKET id

def secondEnd (t : Table) (fd : Slot) (undo : Table → Table) : Except ℤ (Slot × Slot) × Table :=
  match duplicateDescriptor t fd.val 0 with
  | (.error _, t) => (.error EMFILE, undo t)
  | (.ok fd2, t) => (.ok (fd, fd2), t)

/-- `pipe`: the two descriptors. -/
def pipe (net : NetErrno → ℤ) (t : Table) (k : Answers) : Except ℤ (Slot × Slot) × Table :=
  let ret := k.msgPipe
  if ret < 0 then (.error (sceErrnoToErrno net ret .GENERIC), t)
  else
    let undo : Table → Table := fun t ↦ t.call (.close (.msgPipe ret) k.close)
    match install (t.call (.created (.msgPipe ret))) ret .PIPE undo with
    | (.error e, t) => (.error e, t)
    | (.ok fd, t) => secondEnd t fd undo

/-- Whether an object has been created and not destroyed. -/
def alive : List KernelCall → KernelObject → Prop
  | [], _ => False
  | .created o' :: cs, o => o = o' ∨ alive cs o
  | .close o' r :: cs, o => alive cs o ∧ ¬ (o = o' ∧ 0 ≤ r)

/-- The handles that the kernel gives out are not in use, and no handle of FIOS is negative. -/
structure Answers.Sound (k : Answers) (t : Table) : Prop where
  dh : 0 ≤ k.dhOpen → 0 ≤ k.dh ∧ ¬ alive t.calls (.directory k.dh)
  fh : 0 ≤ k.fhOpen → 0 ≤ k.fh ∧ ¬ alive t.calls (.file k.fh)
  netSocket : 0 ≤ k.netSocket → ¬ alive t.calls (.socket k.netSocket)
  netAccept : 0 ≤ k.netAccept → ¬ alive t.calls (.socket k.netAccept)
  msgPipe : 0 ≤ k.msgPipe → ¬ alive t.calls (.msgPipe k.msgPipe)

structure Unchanged (t t' : Table) : Prop where
  fdmap : t'.fdmap = t.fdmap
  pool : t'.pool = t.pool
  objects : ∀ o, alive t'.calls o ↔ alive t.calls o

/-- A failing call changes nothing. -/
def Atomic {α : Type} (t : Table) (res : Except ℤ α × Table) : Prop :=
  ∀ e, res.1 = .error e → Unchanged t res.2

def Available (t : Table) : Prop :=
  (∃ s : Slot, 3 ≤ s.val ∧ t.fdmap s = none) ∧ ∃ i, (t.pool i).refCount = 0

def TwoFree (t : Table) : Prop :=
  ∃ s s' : Slot, s ≠ s' ∧ (3 ≤ s.val ∧ t.fdmap s = none) ∧ 3 ≤ s'.val ∧ t.fdmap s' = none

def InUse (t : Table) : Prop := ∀ s i, t.fdmap s = some i → 0 < (t.pool i).refCount

def Opens (net : NetErrno → ℤ) (k : Answers) (fullPath : Except ℤ String) (flags : BitVec 32) :
    Prop :=
  (∃ p, fullPath = .ok p) ∧
    if isDir k = 0 ∧ flags &&& O_DIRECTORY ≠ 0 then
      (flags &&& O_CREAT ≠ 0 → k.dirCreate < 0 → sceErrnoToErrno net k.dirCreate .FIOS = EEXIST) ∧
        0 ≤ k.dhOpen
    else 0 ≤ k.fhOpen

section

variable {net : NetErrno → ℤ} {t t' : Table} {k : Answers} {o o' : KernelObject} {r : ℤ} {α : Type}

theorem Unchanged.rfl : Unchanged t t := ⟨by rfl, by rfl, fun _ ↦ Iff.rfl⟩

theorem atomic_ok {a : α} : Atomic t (.ok a, t') := fun _ h ↦ by cases h

theorem atomic_error {e : ℤ} : Atomic t ((.error e : Except ℤ α), t') ↔ Unchanged t t' :=
  ⟨fun h ↦ h e rfl, fun h _ _ ↦ h⟩

theorem not_unchanged_created (ho : ¬ alive t.calls o) : ¬ Unchanged t (t.call (.created o)) :=
  fun h ↦ ho ((h.objects o).mp (.inl rfl))

theorem unchanged_close (ho : ¬ alive t.calls o) :
    Unchanged t ((t.call (.created o)).call (.close o' r)) ↔ o' = o ∧ 0 ≤ r := by
  constructor
  · intro h
    by_contra hno
    exact ho ((h.objects o).mp ⟨.inl rfl, fun hc ↦ hno ⟨hc.1.symm, hc.2⟩⟩)
  · rintro ⟨rfl, hr⟩
    refine ⟨rfl, rfl, fun o ↦ ⟨?_, fun h ↦ ⟨.inr h, ?_⟩⟩⟩
    · rintro ⟨rfl | h, hne⟩
      · exact absurd ⟨rfl, hr⟩ hne
      · exact h
    · rintro ⟨rfl, -⟩
      exact ho h

theorem firstFree_taken {s : Slot} {i : Entry} (hs : FirstFree t 3 s)
    (hi : (t.pool i).refCount = 0) : Available t := by
  have := hs.above
  exact ⟨⟨s, by omega, hs.free⟩, i, hi⟩

theorem not_available (h : (∀ s : Slot, 3 ≤ s.val → t.fdmap s ≠ none) ∨
    ∀ i, (t.pool i).refCount ≠ 0) : ¬ Available t := by
  rintro ⟨⟨s, hs, hfree⟩, i, hi⟩
  rcases h with h | h
  · exact h s hs hfree
  · exact h i hi

theorem install_atomic (uid : ℤ) (type : DescriptorTypes) (undo : Table → Table) :
    Atomic t (install t' uid type undo) ↔ Available t' ∨ Unchanged t (undo t') := by
  have hout := acquireDescriptor_outcome t'
  unfold install
  generalize acquireDescriptor t' = res at hout ⊢
  cases hout with
  | full h => exact atomic_error.trans (or_iff_right (not_available h)).symm
  | taken s i hs hi => exact iff_of_true atomic_ok (.inl (firstFree_taken hs hi))

theorem opened_atomic {ret handle : ℤ} (hsound : 0 ≤ ret → 0 ≤ handle ∧ ¬ alive t.calls o)
    {type : DescriptorTypes} (e : ℤ → ℤ) (close : ℤ → KernelObject) {res : ℤ × Table}
    (hres : res = opened t ret handle o) :
    Atomic t (if res.1 < 0 then (.error (e res.1), res.2)
      else install res.2 res.1 type fun t ↦ t.call (.close (close res.1) r)) ↔
      (0 ≤ ret → Available t ∨ close handle = o ∧ 0 ≤ r) := by
  subst hres
  unfold opened
  by_cases hret : ret < 0
  · simp only [if_pos hret]
    exact iff_of_true (atomic_error.mpr .rfl) fun h ↦ by omega
  · have hret' : 0 ≤ ret := by omega
    obtain ⟨hpos, ho⟩ := hsound hret'
    have hneg : ¬ handle < 0 := by omega
    simp only [if_neg hret, if_neg hneg]
    rw [install_atomic, unchanged_close ho]
    exact ⟨fun h _ ↦ h, fun h ↦ h hret'⟩

theorem opens_directory (p : String) {flags : BitVec 32}
    (h : isDir k = 0 ∧ flags &&& O_DIRECTORY ≠ 0) : Opens net k (.ok p) flags ↔
      (flags &&& O_CREAT ≠ 0 → k.dirCreate < 0 →
        sceErrnoToErrno net k.dirCreate .FIOS = EEXIST) ∧ 0 ≤ k.dhOpen := by
  rw [Opens, if_pos h]
  exact and_iff_right ⟨p, by rfl⟩

theorem opens_file (p : String) {flags : BitVec 32}
    (h : ¬ (isDir k = 0 ∧ flags &&& O_DIRECTORY ≠ 0)) :
    Opens net k (.ok p) flags ↔ 0 ≤ k.fhOpen := by
  rw [Opens, if_neg h]
  exact and_iff_right ⟨p, by rfl⟩

theorem open_atomic (hk : k.Sound t) (fullPath : Except ℤ String) (flags : BitVec 32) :
    Atomic t (open' net t k fullPath flags) ↔
      (Opens net k fullPath flags → Available t ∨
        (isDir k = 0 → flags &&& O_DIRECTORY ≠ 0) ∧ 0 ≤ k.close) := by
  cases fullPath with
  | error e => exact iff_of_true (atomic_error.mpr .rfl) fun ⟨⟨p, hp⟩, _⟩ ↦ by cases hp
  | ok p =>
    unfold open'
    extract_lets dir errno
    by_cases hdir : isDir k = 0 ∧ flags &&& O_DIRECTORY ≠ 0
    · rw [opens_directory p hdir]
      by_cases hcreate : flags &&& O_CREAT ≠ 0 ∧ k.dirCreate < 0 ∧ errno ≠ EEXIST
      · rw [if_pos ⟨hdir.1, hdir.2, hcreate⟩]
        exact iff_of_true (atomic_error.mpr .rfl) fun h ↦
          absurd (h.1 hcreate.1 hcreate.2.1) hcreate.2.2
      · rw [if_neg fun h ↦ hcreate h.2.2]
        have hgo : flags &&& O_CREAT ≠ 0 → k.dirCreate < 0 →
            sceErrnoToErrno net k.dirCreate .FIOS = EEXIST := fun h₁ h₂ ↦ by
          by_contra h₃
          exact hcreate ⟨h₁, h₂, h₃⟩
        refine (opened_atomic hk.dh (sceErrnoToErrno net · .FIOS)
          (fun ret ↦ if dir then .directory ret else .file ret) (if_pos hdir)).trans ?_
        rw [if_pos hdir.1]
        exact ⟨fun h ho ↦ (h ho.2).imp_right fun hc ↦ ⟨fun _ ↦ hdir.2, hc.2⟩,
          fun h ho ↦ (h ⟨hgo, ho⟩).imp_right fun hc ↦ ⟨by rfl, hc.2⟩⟩
    · rw [opens_file p hdir, if_neg fun h ↦ hdir ⟨h.1, h.2.1⟩]
      refine (opened_atomic hk.fh (sceErrnoToErrno net · .FIOS)
        (fun ret ↦ if dir then .directory ret else .file ret) (if_neg hdir)).trans ?_
      by_cases hisdir : isDir k = 0
      · have hflag : ¬ flags &&& O_DIRECTORY ≠ 0 := fun h ↦ hdir ⟨hisdir, h⟩
        rw [if_pos hisdir]
        exact ⟨fun h ho ↦ (h ho).imp_right fun hc ↦ (KernelObject.noConfusion hc.1),
          fun h ho ↦ (h ho).imp_right fun hc ↦ absurd (hc.1 hisdir) hflag⟩
      · rw [if_neg hisdir]
        exact ⟨fun h ho ↦ (h ho).imp_right fun hc ↦ ⟨fun hd ↦ absurd hd hisdir, hc.2⟩,
          fun h ho ↦ (h ho).imp_right fun hc ↦ ⟨by rfl, hc.2⟩⟩

theorem socket_atomic (hk : k.Sound t) :
    Atomic t (socket net t k) ↔ (0 ≤ k.netSocket → Available t) := by
  unfold socket
  extract_lets res
  by_cases hres : res < 0
  · rw [if_pos hres]
    exact iff_of_true (atomic_error.mpr .rfl) fun h ↦ absurd hres (not_lt.mpr h)
  · have hpos : 0 ≤ k.netSocket := not_lt.mp hres
    rw [if_neg hres, install_atomic, id, or_iff_left (not_unchanged_created (hk.netSocket hpos))]
    exact ⟨fun h _ ↦ h, fun h ↦ h hpos⟩

theorem accept_atomic (hk : k.Sound t) (ht : InUse t) (s : ℤ) :
    Atomic t (accept net t k s) ↔
      (isFdValid t s = true → 0 ≤ k.netAccept → Available t) := by
  have hout := fdGrab_outcome t s
  unfold accept
  generalize fdGrab t s = res at hout ⊢
  cases hout with
  | refused h =>
    refine iff_of_true (atomic_error.mpr .rfl) fun hv ↦ ?_
    rw [isFdValid, h] at hv
    cases hv
  | grabbed s' i h =>
    have hvalid : isFdValid t s = true := by rw [isFdValid, h]; rfl
    have hi := ht s' i (openAt_eq_some.mp h).2
    dsimp only
    by_cases hres : k.netAccept < 0
    · rw [if_pos hres, if_pos hres, fdDrop_grabbed hi]
      exact iff_of_true (atomic_error.mpr .rfl) fun _ h ↦ absurd hres (not_lt.mpr h)
    · have hpos : 0 ≤ k.netAccept := not_lt.mp hres
      have hdrop : (fdDrop net ((t.addRef i 1).call (.created (.socket k.netAccept))) i k.close).2 =
          t.call (.created (.socket k.netAccept)) :=
        fdDrop_grabbed (t := t.call (.created (.socket k.netAccept))) hi
      rw [if_neg hres, if_neg hres, hdrop, install_atomic, id,
        or_iff_left (not_unchanged_created (hk.netAccept hpos))]
      exact ⟨fun h _ _ ↦ h, fun h ↦ h hvalid hpos⟩

theorem fillSlot_fdmap (s : Slot) (uid : ℤ) (type : DescriptorTypes) :
    (t.fillSlot s uid type).fdmap = t.fdmap := by
  unfold Table.fillSlot
  split <;> rfl

/-- With one slot just taken from the table `t`, the second end of a pipe finds a slot if and only
if `t` had two, and where it does not the first slot stays taken. -/
theorem secondEnd_atomic {s : Slot} {i : Entry} (hs : FirstFree t 3 s)
    (ht' : t'.fdmap = Function.update t.fdmap s (some i)) (undo : Table → Table)
    (hundo : ∀ t, (undo t).fdmap = t.fdmap) :
    Atomic t (secondEnd t' s undo) ↔ TwoFree t := by
  have hs₃ : 3 ≤ s.val := by
    have := hs.above
    omega
  have hself : t'.fdmap s = some i := by rw [ht', Function.update_self]
  have hother : ∀ s' ≠ s, t'.fdmap s' = t.fdmap s' := fun s' h ↦ by
    rw [ht', Function.update_of_ne h]
  have hout := duplicateDescriptor_outcome t' s.val 0
  unfold secondEnd
  generalize duplicateDescriptor t' s.val 0 = res at hout ⊢
  cases hout with
  | refused h => cases (openAt_slot.mp h).symm.trans hself
  | full _ _ _ hfull =>
    refine iff_of_false (fun h ↦ ?_) fun ⟨s₁, s₂, hne, h₁, h₂⟩ ↦ ?_
    · have hmap := congrFun (atomic_error.mp h).fdmap s
      rw [hundo, hself, hs.free] at hmap
      cases hmap
    · have hnone : ∀ s' : Slot, 3 ≤ s'.val → t.fdmap s' = none → s' = s := by
        intro s' hs' hfree
        by_contra hne
        exact hfull s' (by omega) ((hother s' hne).trans hfree)
      exact hne ((hnone s₁ h₁.1 h₁.2).trans (hnone s₂ h₂.1 h₂.2).symm)
  | shared _ _ _ s' hs' =>
    have habove := hs'.above
    have hne : s' ≠ s := by
      rintro rfl
      cases hs'.free.symm.trans hself
    exact iff_of_true atomic_ok ⟨s, s', hne.symm, ⟨hs₃, hs.free⟩, by omega,
      (hother s' hne).symm.trans hs'.free⟩

theorem pipe_atomic (hk : k.Sound t) : Atomic t (pipe net t k) ↔
    (0 ≤ k.msgPipe → (Available t → TwoFree t) ∧ (¬ Available t → 0 ≤ k.close)) := by
  unfold pipe
  extract_lets ret undo
  by_cases hret : ret < 0
  · rw [if_pos hret]
    exact iff_of_true (atomic_error.mpr .rfl) fun h ↦ absurd hret (not_lt.mpr h)
  · have hpos : 0 ≤ k.msgPipe := not_lt.mp hret
    have ho := hk.msgPipe hpos
    rw [if_neg hret, imp_iff_right hpos]
    unfold install
    have hout := acquireDescriptor_outcome (t.call (.created (.msgPipe ret)))
    generalize acquireDescriptor (t.call (.created (.msgPipe ret))) = res at hout ⊢
    cases hout with
    | full h =>
      have hno := not_available (t := t) h
      refine (atomic_error.trans (unchanged_close ho)).trans ?_
      exact ⟨fun h ↦ ⟨fun hav ↦ absurd hav hno, fun _ ↦ h.2⟩, fun h ↦ ⟨by rfl, h.2 hno⟩⟩
    | taken s i hs hi =>
      have hav : Available t := firstFree_taken (t := t) ⟨hs.above, hs.free, hs.least⟩ hi
      refine (secondEnd_atomic (t := t) ⟨hs.above, hs.free, hs.least⟩ (fillSlot_fdmap s ret .PIPE)
        undo fun _ ↦ by rfl).trans ?_
      exact ⟨fun h ↦ ⟨fun _ ↦ h, fun hno ↦ absurd hav hno⟩, fun h ↦ h.1 hav⟩

theorem Counts.inUse {g : Entry → ℕ} (hc : Counts t g) : InUse t := by
  intro s i hs
  have := hc i
  have : 0 < refs t.fdmap i := refs_pos.mpr ⟨s, hs⟩
  omega

/-- When the calls that create a descriptor fail without a trace. -/
theorem creation_atomic (net : NetErrno → ℤ) (hk : k.Sound t) :
    (∀ fullPath flags, Atomic t (open' net t k fullPath flags) ↔
      (Opens net k fullPath flags → Available t ∨
        (isDir k = 0 → flags &&& O_DIRECTORY ≠ 0) ∧ 0 ≤ k.close)) ∧
    (Atomic t (socket net t k) ↔ (0 ≤ k.netSocket → Available t)) ∧
    (InUse t → ∀ s, Atomic t (accept net t k s) ↔
      (isFdValid t s = true → 0 ≤ k.netAccept → Available t)) ∧
    (Atomic t (pipe net t k) ↔
      (0 ≤ k.msgPipe → (Available t → TwoFree t) ∧ (¬ Available t → 0 ≤ k.close))) :=
  ⟨open_atomic hk, socket_atomic hk, accept_atomic hk, pipe_atomic hk⟩

end

def granting : Answers where
  stat := 0
  isDirectory := true
  dirCreate := 0
  dhOpen := 0
  dh := 3
  fhOpen := 0
  fh := 4
  netSocket := 5
  netAccept := 6
  msgPipe := 7
  close := 0

theorem creation_atomic_initFd :
    Atomic (initFd 0 1 2) (socket 0 (initFd 0 1 2) granting) ∧
      Atomic (initFd 0 1 2) (accept 0 (initFd 0 1 2) granting 0) ∧
      Atomic (initFd 0 1 2) (pipe 0 (initFd 0 1 2) granting) := by
  have hk : granting.Sound (initFd 0 1 2) := by constructor <;> simp [granting, initFd, alive]
  have ht : InUse (initFd 0 1 2) := (counts_initFd 0 1 2).inUse
  have hav : Available (initFd 0 1 2) := ⟨⟨3, by decide, by decide⟩, 3, by decide⟩
  have h := creation_atomic 0 hk
  exact ⟨h.2.1.mpr fun _ ↦ hav, (h.2.2.1 ht 0).mpr fun _ _ ↦ hav, h.2.2.2.mpr fun _ ↦
    ⟨fun _ ↦ ⟨3, 4, by decide, by decide, by decide⟩, fun hno ↦ absurd hav hno⟩⟩

def filled (n : ℕ) : Table where
  fdmap s := if s.val < n then some s else none
  pool i := if i.val < n then ⟨2, .FILE, 1⟩ else {}
  held := 0
  calls := []

theorem filled_slot {n : ℕ} {s : Slot} (h : s.val < n) : (filled n).fdmap s = some s := if_pos h

/-- A socket without a slot, a pipe with one slot only, and a directory opened as a file without a
slot are left behind. -/
theorem creation_leaks :
    ¬ Atomic (filled 256) (socket 0 (filled 256) granting) ∧
      ¬ Atomic (filled 255) (pipe 0 (filled 255) granting) ∧
      ¬ Atomic (filled 256) (open' 0 (filled 256) granting (.ok "app0:data") 0) := by
  have hk : ∀ n, granting.Sound (filled n) := fun n ↦ by
    constructor <;> simp [granting, filled, alive]
  have hfull : ¬ Available (filled 256) := by
    rintro ⟨⟨s, -, hs⟩, -⟩
    cases (filled_slot s.isLt).symm.trans hs
  refine ⟨fun h ↦ ?_, fun h ↦ ?_, fun h ↦ ?_⟩
  · exact hfull ((socket_atomic (hk 256)).mp h (by decide))
  · obtain ⟨s, s', hne, hs, hs'⟩ := ((pipe_atomic (hk 255)).mp h (by decide)).1
      ⟨⟨255, by decide, by decide⟩, 255, by decide⟩
    have hlast : ∀ s : Slot, (filled 255).fdmap s = none → s.val = 255 := by
      intro s hs
      have : s.val < 256 := s.isLt
      by_contra hlt
      cases (filled_slot (by omega)).symm.trans hs
    exact hne (Fin.ext ((hlast s hs.2).trans (hlast s' hs'.2).symm))
  · rcases (open_atomic (hk 256) (.ok "app0:data") 0).mp h ⟨⟨_, rfl⟩, by decide⟩ with hav | hno
    · exact hfull hav
    · exact absurd (hno.1 (by decide)) (by decide)

end SceLibcPosix.Descriptor
