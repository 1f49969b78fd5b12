import Mathlib.Data.Bool.AllAny
import SceLibcPosix.Descriptor.Calls
import SceLibcPosix.Descriptor.Create
import SceLibcPosix.Lib.Flags

namespace SceLibcPosix.Descriptor

open Flags

def O_RDONLY : BitVec 32 := 0
def O_WRONLY : BitVec 32 := 1
def O_RDWR : BitVec 32 := 2
def O_ACCMODE : BitVec 32 := O_RDONLY ||| O_WRONLY ||| O_RDWR
def O_APPEND : BitVec 32 := 0x8
def O_TRUNC : BitVec 32 := 0x400
def O_EXCL : BitVec 32 := 0x800

def SCE_FIOS_O_RDONLY : BitVec 32 := 1 <<< 0
def SCE_FIOS_O_WRONLY : BitVec 32 := 1 <<< 1
def SCE_FIOS_O_RDWR : BitVec 32 := SCE_FIOS_O_RDONLY ||| SCE_FIOS_O_WRONLY
def SCE_FIOS_O_APPEND : BitVec 32 := 1 <<< 2
def SCE_FIOS_O_CREAT : BitVec 32 := 1 <<< 3
def SCE_FIOS_O_TRUNC : BitVec 32 := 1 <<< 4

/-- The kernel's own open flags, in a header that the repository does not have. -/
def SCE_O_NBLOCK : BitVec 32 := 0x0004
def SCE_O_EXCL : BitVec 32 := 0x0800

def fcntl2sony (flags : BitVec 32) : BitVec 32 :=
  let nonblock := BitVec.ofNat 32 O_NONBLOCK
  let out := 0
  let out := if Has flags O_RDWR then out ||| SCE_FIOS_O_RDWR
    else if Has flags O_WRONLY then out ||| SCE_FIOS_O_WRONLY
    else out ||| SCE_FIOS_O_RDONLY
  let out := if Has flags nonblock then out ||| SCE_O_NBLOCK else out
  let out := if Has flags O_APPEND then out ||| SCE_FIOS_O_APPEND else out
  let out := if Has flags O_CREAT then out ||| SCE_FIOS_O_CREAT else out
  let out := if Has flags O_TRUNC then out ||| SCE_FIOS_O_TRUNC else out
  if Has flags O_EXCL then out ||| SCE_O_EXCL else out

/-- What FIOS reads back from the 16 bits of `openParams.openFlags` that `open` stores to. -/
def openFlags (flags : BitVec 32) : BitVec 32 := ((fcntl2sony flags).setWidth 16).setWidth 32

def fiosFlags : BitVec 32 :=
  SCE_FIOS_O_RDWR ||| SCE_FIOS_O_APPEND ||| SCE_FIOS_O_CREAT ||| SCE_FIOS_O_TRUNC

/-- What FIOS is asked for is what the flags say: each flag acts on its own bit alone. -/
structure Independent (flags : BitVec 32) : Prop where
  append : Has (openFlags flags) SCE_FIOS_O_APPEND ↔ Has flags O_APPEND
  creat : Has (openFlags flags) SCE_FIOS_O_CREAT ↔ Has flags O_CREAT
  trunc : Has (openFlags flags) SCE_FIOS_O_TRUNC ↔ Has flags O_TRUNC
  rdonly : flags &&& O_ACCMODE = O_RDONLY →
    openFlags flags &&& SCE_FIOS_O_RDWR = SCE_FIOS_O_RDONLY
  wronly : flags &&& O_ACCMODE = O_WRONLY →
    openFlags flags &&& SCE_FIOS_O_RDWR = SCE_FIOS_O_WRONLY
  rdwr : flags &&& O_ACCMODE = O_RDWR → openFlags flags &&& SCE_FIOS_O_RDWR = SCE_FIOS_O_RDWR
  nonblock : ∀ flags', flags = flags' ||| BitVec.ofNat 32 O_NONBLOCK →
    openFlags flags &&& fiosFlags = openFlags flags' &&& fiosFlags
  excl : ∀ flags', flags = flags' ||| O_EXCL →
    openFlags flags &&& fiosFlags = openFlags flags' &&& fiosFlags
  nonblock_kept : Has flags (BitVec.ofNat 32 O_NONBLOCK) → Has (openFlags flags) SCE_O_NBLOCK
  excl_kept : Has flags O_EXCL → Has (openFlags flags) SCE_O_EXCL

def fiosRules : List (BitVec 32 × BitVec 32) :=
  [(BitVec.ofNat 32 O_NONBLOCK, SCE_O_NBLOCK), (O_APPEND, SCE_FIOS_O_APPEND),
    (O_CREAT, SCE_FIOS_O_CREAT), (O_TRUNC, SCE_FIOS_O_TRUNC), (O_EXCL, SCE_O_EXCL)]

def fiosAccess (flags : BitVec 32) : BitVec 32 :=
  if Has flags O_RDWR then SCE_FIOS_O_RDWR
  else if Has flags O_WRONLY then SCE_FIOS_O_WRONLY
  else SCE_FIOS_O_RDONLY

variable {flags flags' c : BitVec 32}

theorem fcntl2sony_eq : fcntl2sony flags = translate fiosRules (fiosAccess flags) flags := rfl

theorem openFlags_and (hc : (c.setWidth 16).setWidth 32 = c) :
    openFlags flags &&& c = translate fiosRules (fiosAccess flags) flags &&& c := by
  rw [openFlags, fcntl2sony_eq, setWidth_and hc]

theorem fiosAccess_cases (flags : BitVec 32) : fiosAccess flags = SCE_FIOS_O_RDWR ∨
    fiosAccess flags = SCE_FIOS_O_WRONLY ∨ fiosAccess flags = SCE_FIOS_O_RDONLY := by
  unfold fiosAccess
  split
  · exact .inl rfl
  · split
    · exact .inr (.inl rfl)
    · exact .inr (.inr rfl)

theorem fiosAccess_disjoint (hc : SCE_FIOS_O_RDWR &&& c = 0) : ¬ Has (fiosAccess flags) c := by
  have hsub (x : BitVec 32) (hx : x &&& SCE_FIOS_O_RDWR = x) : x &&& c = 0 := by
    rw [← hx, BitVec.and_assoc, hc]
    exact BitVec.and_zero
  obtain h | h | h := fiosAccess_cases flags
  all_goals
    rw [h]
    exact fun hhas ↦ hhas (hsub _ (by decide))

theorem has_openFlags (hc : (c.setWidth 16).setWidth 32 = c) (hacc : SCE_FIOS_O_RDWR &&& c = 0) :
    Has (openFlags flags) c ↔ ∃ r ∈ fiosRules.filter fun r ↦ Has r.2 c, Has flags r.1 := by
  rw [Has, openFlags_and hc]
  refine has_translate.trans ((or_iff_right (fiosAccess_disjoint hacc)).trans ?_)
  simp only [List.mem_filter, decide_eq_true_eq, and_assoc, and_comm (a := Has flags _)]

theorem has_append : Has (openFlags flags) SCE_FIOS_O_APPEND ↔
    Has flags (BitVec.ofNat 32 O_NONBLOCK) ∨ Has flags O_APPEND := by
  have hrules : fiosRules.filter (fun r ↦ Has r.2 SCE_FIOS_O_APPEND) =
      [(BitVec.ofNat 32 O_NONBLOCK, SCE_O_NBLOCK), (O_APPEND, SCE_FIOS_O_APPEND)] := by decide
  rw [has_openFlags (by decide) (by decide), hrules]
  simp

theorem has_single {r : BitVec 32 × BitVec 32} (hc : (c.setWidth 16).setWidth 32 = c)
    (hacc : SCE_FIOS_O_RDWR &&& c = 0) (hrules : (fiosRules.filter fun r ↦ Has r.2 c) = [r]) :
    Has (openFlags flags) c ↔ Has flags r.1 := by
  rw [has_openFlags hc hacc, hrules]
  simp

theorem openFlags_access : openFlags flags &&& SCE_FIOS_O_RDWR = fiosAccess flags := by
  have hskip : ∀ r ∈ fiosRules, ¬ Has r.2 SCE_FIOS_O_RDWR :=
    List.all_iff_forall_prop.mp (by decide)
  have hrules : translate fiosRules (fiosAccess flags) flags &&& SCE_FIOS_O_RDWR =
      translate fiosRules (fiosAccess flags) 0 &&& SCE_FIOS_O_RDWR :=
    translate_and_congr rfl fun r hr h ↦ absurd h (hskip r hr)
  rw [openFlags_and (by decide), hrules]
  obtain h | h | h := fiosAccess_cases flags
  all_goals
    rw [h]
    decide

theorem fiosAccess_mode (flags : BitVec 32) :
    fiosAccess flags = fiosAccess (flags &&& O_ACCMODE) := by
  have hmode (m : BitVec 32) (hm : O_ACCMODE &&& m = m) :
      Has flags m ↔ Has (flags &&& O_ACCMODE) m := by
    rw [Has, Has, BitVec.and_assoc, hm]
  unfold fiosAccess
  rw [if_congr (hmode O_RDWR (by decide)) rfl (if_congr (hmode O_WRONLY (by decide)) rfl rfl)]

theorem openFlags_or_and {f : BitVec 32} (hc : (c.setWidth 16).setWidth 32 = c)
    (hacc : f &&& O_ACCMODE = 0) (hf : ∀ r ∈ fiosRules, Has r.2 c → ¬ Has f r.1) :
    openFlags (flags ||| f) &&& c = openFlags flags &&& c := by
  have hmode : fiosAccess (flags ||| f) = fiosAccess flags := by
    rw [fiosAccess_mode, BitVec.and_or_distrib_right, hacc, fiosAccess_mode flags]
    exact congrArg fiosAccess BitVec.or_zero
  rw [openFlags_and hc, openFlags_and hc, hmode]
  exact translate_or_and rfl hf

def otherFlags : BitVec 32 := SCE_FIOS_O_RDWR ||| SCE_FIOS_O_CREAT ||| SCE_FIOS_O_TRUNC

theorem openFlags_or_nonblock (happend : Has flags O_APPEND) :
    openFlags (flags ||| BitVec.ofNat 32 O_NONBLOCK) &&& fiosFlags =
      openFlags flags &&& fiosFlags := by
  have hset (flags : BitVec 32) (h : Has flags O_APPEND) :
      openFlags flags &&& SCE_FIOS_O_APPEND = SCE_FIOS_O_APPEND :=
    Has.and_twoPow (i := 2) (has_append.mpr (.inr h))
  have hothers : openFlags (flags ||| BitVec.ofNat 32 O_NONBLOCK) &&& otherFlags =
      openFlags flags &&& otherFlags :=
    openFlags_or_and (by decide) (by decide) (List.all_iff_forall_prop.mp (by decide))
  have hsplit : fiosFlags = otherFlags ||| SCE_FIOS_O_APPEND := by decide
  have hdist (x : BitVec 32) :
      x &&& fiosFlags = x &&& otherFlags ||| x &&& SCE_FIOS_O_APPEND := by
    rw [hsplit]
    exact BitVec.and_or_distrib_left
  rw [hdist, hdist, hothers, hset flags happend, hset _ (has_or.mpr (.inl happend))]

/-- Each flag asks FIOS for its own bit alone, unless `O_NONBLOCK` has come without `O_APPEND`:
`SCE_O_NBLOCK` is the bit that FIOS reads as `SCE_FIOS_O_APPEND`. -/
theorem independent_iff (flags : BitVec 32) : Independent flags ↔
    ¬ (Has flags (BitVec.ofNat 32 O_NONBLOCK) ∧ ¬ Has flags O_APPEND) := by
  constructor
  · intro h hblock
    exact hblock.2 (h.append.mp (has_append.mpr (.inl hblock.1)))
  · intro h
    have hblock : Has flags (BitVec.ofNat 32 O_NONBLOCK) → Has flags O_APPEND := by
      intro hn
      by_contra ha
      exact h ⟨hn, ha⟩
    have hmode {m : BitVec 32} (hm : flags &&& O_ACCMODE = m) :
        openFlags flags &&& SCE_FIOS_O_RDWR = fiosAccess m := by
      rw [openFlags_access, fiosAccess_mode, hm]
    refine
      { append := has_append.trans (or_iff_right_of_imp hblock)
        creat := has_single (by decide) (by decide) (r := (O_CREAT, SCE_FIOS_O_CREAT)) (by decide)
        trunc := has_single (by decide) (by decide) (r := (O_TRUNC, SCE_FIOS_O_TRUNC)) (by decide)
        rdonly := hmode
        wronly := hmode
        rdwr := hmode
        nonblock := ?_
        excl := ?_
        nonblock_kept := fun hn ↦ has_append.mpr (.inl hn)
        excl_kept := ?_ }
    · rintro flags' rfl
      have ha := hblock (has_or.mpr (.inr (by decide)))
      exact openFlags_or_nonblock (has_or.mp ha |>.resolve_right (by decide))
    · rintro flags' rfl
      exact openFlags_or_and (by decide) (by decide) (List.all_iff_forall_prop.mp (by decide))
    · exact (has_single (by decide) (by decide) (r := (O_EXCL, SCE_O_EXCL)) (by decide)).mpr

/-- `O_WRONLY | O_NONBLOCK` opens the file for appending. -/
theorem nonblock_appends : ¬ ∀ flags, Independent flags := by
  intro h
  have hflags : Has (openFlags 0x4001) SCE_FIOS_O_APPEND := by decide
  exact absurd ((h 0x4001).append.mp hflags) (by decide)

end SceLibcPosix.Descriptor
