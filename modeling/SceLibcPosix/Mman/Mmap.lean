import Mathlib.Data.List.Infix
import SceLibcPosix.Mman.Remap

namespace SceLibcPosix.Mman

open Spans Relation Errno

def MAP_SHARED : BitVec 32 := 0x01
def MAP_PRIVATE : BitVec 32 := 0x02
def MAP_FIXED : BitVec 32 := 0x10
def MAP_ANONYMOUS : BitVec 32 := 0x20

/-- What a call of `pread` does: it moves some bytes, or returns -1 with `errno` set. -/
inductive Reading
  | moved (data : List UInt8)
  | failed (errno : ℤ)
deriving DecidableEq, Repr

/-- The answers of `pread` on the descriptor: by the number of the call, its offset and its size. -/
abbrev Pread := ℕ → ℕ → ℕ → Reading

@[simps] def State.fill (m : State) (s : ℕ) (data : List UInt8) : State :=
  { m with mem := fun x ↦ if s ≤ x ∧ x < s + data.length then data.getD (x - s) 0 else m.mem x }

/-- The loop of `mmap` over `pread`, from its `i`-th call on: how far it gets, or the `errno` of the
read that failed. -/
def readLoop (pread : Pread) (base off len i done : ℕ) (m : State) : Except ℤ ℕ × State :=
  if done < len then
    match pread i (off + done) (len - done) with
    | .failed errno => (.error errno, m)
    | .moved data =>
      if _h : data = [] then (.ok done, m)
      else readLoop pread base off len (i + 1) (done + data.length) (m.fill (base + done) data)
  else (.ok done, m)
termination_by len - done
decreasing_by
  have := List.length_pos_iff.mpr _h
  omega

/-- The checks of `mmap` on its arguments: the `errno` with which it refuses them. -/
def mmapArgs (len : ℕ) (prot flags : BitVec 32) (fd off : ℤ) : Option ℤ :=
  if len = 0 ∨ off < 0 ∨ off % 0x1000 ≠ 0 then some EINVAL
  else if flags &&& (MAP_SHARED ||| MAP_PRIVATE) = 0 then some EINVAL
  else if flags &&& MAP_ANONYMOUS ≠ 0 then none
  else if fd < 0 then some EBADF
  else if flags &&& MAP_SHARED ≠ 0 ∧ prot &&& PROT_WRITE ≠ 0 then some ENOTSUP
  else none

/-- How `mmap` fills the new pages at `base`. -/
def mmapFill (m : State) (pread : Pread) (base len : ℕ) (flags : BitVec 32) (off : ℤ) :
    Except ℤ Unit × State :=
  if flags &&& MAP_ANONYMOUS ≠ 0 then (.ok (), m.memset base 0 (pageAlign len))
  else
    match readLoop pread base off.toNat len 0 0 m with
    | (.error errno, m) => (.error errno, m)
    | (.ok done, m) => (.ok (), m.memset (base + done) 0 (subU (pageAlign len) done))

def mmap (m : State) (k : Answers) (pread : Pread) (addr len : ℕ) (prot flags : BitVec 32)
    (fd off : ℤ) : ℕ × ℤ × State :=
  match mmapArgs len prot flags fd off with
  | some errno => (MAP_FAILED, errno, m)
  | none =>
    let (base, err, m) :=
      mmanMap m k (if flags &&& MAP_FIXED ≠ 0 then addr else NULL) len (prot ||| PROT_WRITE)
    if base = NULL then (MAP_FAILED, if err ≠ 0 then err else ENOMEM, m)
    else
      match mmapFill m pread base len flags off with
      | (.error e, m) => (MAP_FAILED, e, (mmanUnmap m base len).2)
      | (.ok (), m) =>
        (base, 0, if prot ||| PROT_WRITE ≠ prot then (mmanProtect m k base len prot).2 else m)

/-- `pread` moves bytes of the file, and never more than it is asked for. -/
def Serves (pread : Pread) (file : List UInt8) : Prop :=
  ∀ i pos n data, pread i pos n = .moved data → data.length ≤ n ∧ data <+: file.drop pos

/-- After `i` reads of the loop, none of them failed or at the end of the file, `done` bytes are
there. -/
inductive Reads (pread : Pread) (off len : ℕ) : ℕ → ℕ → Prop
  | start : Reads pread off len 0 0
  | read (i done : ℕ) (data : List UInt8) : Reads pread off len i done → done < len →
      pread i (off + done) (len - done) = .moved data → data ≠ [] →
      Reads pread off len (i + 1) (done + data.length)

inductive ReadsEnd (pread : Pread) (off len : ℕ) : Except ℤ ℕ → Prop
  | failed (i done : ℕ) (errno : ℤ) : Reads pread off len i done → done < len →
      pread i (off + done) (len - done) = .failed errno → ReadsEnd pread off len (.error errno)
  | full (i : ℕ) : Reads pread off len i len → ReadsEnd pread off len (.ok len)
  | endOfFile (i done : ℕ) : Reads pread off len i done → done < len →
      pread i (off + done) (len - done) = .moved [] → ReadsEnd pread off len (.ok done)

/-- The first `done` bytes of the range are those of the file, and nothing outside has changed. -/
structure Copied (m : State) (file : List UInt8) (base off done : ℕ) (m' : State) : Prop where
  bytes : ∀ x < done, file[off + x]? = some (m'.mem (base + x))
  same : m' = { m with mem := m'.mem }
  outside : ∀ x, x < base ∨ base + done ≤ x → m'.mem x = m.mem x

section Loop

variable {pread : Pread} {file : List UInt8} {m m' m₀ : State} {base off len i done : ℕ}

theorem copied_zero : Copied m file base off 0 m where
  bytes x hx := absurd hx (Nat.not_lt_zero x)
  same := rfl
  outside _ _ := rfl

theorem Copied.read {data : List UInt8} (h : Copied m₀ file base off done m)
    (hdata : data <+: file.drop (off + done)) :
    Copied m₀ file base off (done + data.length) (m.fill (base + done) data) where
  bytes := by
    intro x hx
    rw [State.fill_mem]
    by_cases hnew : done ≤ x
    · have hlt : x - done < data.length := by omega
      have hget := hdata.getElem hlt
      rw [if_pos (by omega), List.getD_eq_getElem?_getD, show base + x - (base + done) = x - done by
        omega, List.getElem?_eq_getElem hlt, Option.getD_some, hget, List.getElem_drop,
        ← List.getElem?_eq_getElem, show off + done + (x - done) = off + x by omega]
    · rw [if_neg (by omega)]
      exact h.bytes x (by omega)
  same := by
    have := h.same
    rw [this]
    rfl
  outside := by
    intro x hx
    rw [State.fill_mem, if_neg (by omega)]
    exact h.outside x (by omega)

/-- The loop ends after finitely many reads, with what they have moved in place. -/
theorem readLoop_spec (hread : Serves pread file) (hr : Reads pread off len i done)
    (hle : done ≤ len) (hc : Copied m₀ file base off done m) :
    ReadsEnd pread off len (readLoop pread base off len i done m).1 ∧
    (readLoop pread base off len i done m).2 = { m₀ with
      mem := (readLoop pread base off len i done m).2.mem } ∧
    ∀ got, (readLoop pread base off len i done m).1 = .ok got →
      got ≤ len ∧ Copied m₀ file base off got (readLoop pread base off len i done m).2 := by
  fun_induction readLoop pread base off len i done m with
  | case1 i done m hlt errno hp =>
    exact ⟨.failed i done errno hr hlt hp, hc.same, fun got h ↦ by cases h⟩
  | case2 i done m hlt hp =>
    refine ⟨.endOfFile i done hr hlt hp, hc.same, fun got h ↦ ?_⟩
    cases h
    exact ⟨hle, hc⟩
  | case3 i done m hlt data hp hne ih =>
    obtain ⟨hlen, hpre⟩ := hread i _ _ data hp
    exact ih (.read i done data hr hlt hp hne) (by omega) (hc.read hpre)
  | case4 i done m hge =>
    obtain rfl : done = len := by omega
    refine ⟨.full i hr, hc.same, fun got h ↦ ?_⟩
    cases h
    exact ⟨hle, hc⟩

theorem readLoop_start (m : State) (base off len : ℕ) (hread : Serves pread file) :
    ReadsEnd pread off len (readLoop pread base off len 0 0 m).1 ∧
    (readLoop pread base off len 0 0 m).2 = { m with
      mem := (readLoop pread base off len 0 0 m).2.mem } ∧
    ∀ got, (readLoop pread base off len 0 0 m).1 = .ok got →
      got ≤ len ∧ Copied m file base off got (readLoop pread base off len 0 0 m).2 :=
  readLoop_spec hread .start len.zero_le copied_zero

end Loop

section Undo

variable {T : List Region → Prop} {m m' : State} {k : Answers} {n p len hint : ℕ} {uid : ℤ}
  {prot : BitVec 32}

def reservedWith (m : State) (uid : ℤ) (p n : ℕ) : List Reservation :=
  if 0 ≤ uid then ⟨uid, p, n⟩ :: reserved m.calls else reserved m.calls

/-- A range has been mapped that belongs to no block held before. -/
structure Mapped (m : State) (n : ℕ) (prot : BitVec 32) (p : ℕ) (uid : ℤ) (m' : State) : Prop
    extends Placed m n prot p uid m' where
  reserved_eq : reserved m'.calls = reservedWith m uid p n
  own : 0 ≤ uid → ∀ ρ ∈ reserved m.calls, ρ.uid ≠ uid
  unlisted : 0 ≤ uid → ¬ Listed m.regions uid

theorem not_listed_fresh (hm : Inv T m) (hk : m.haveKubridge = true) (hs : k.Sound m n)
    (hu : 0 ≤ k.reserveUid) : ¬ Listed m.regions k.reserveUid := by
  rintro ⟨r, hr, heq⟩
  obtain ⟨-, ρ, hρ, hρu, -⟩ := hm.backed hk r hr
  exact hs.own hu ρ hρ (hρu.trans heq)

theorem MapOutcome.mapped_of_ne_null (hT : Keeps T) (hm : Inv T m) (hs : k.Sound m n) {err : ℤ}
    (h : MapOutcome m k n prot (p, err, m')) (hp : p ≠ NULL) :
    ∃ uid, Mapped m n prot p uid m' := by
  generalize hres : (p, err, m') = res at h
  cases h with
  | refused | commitFailed | tableFull | poolFailed => cases hres; exact absurd rfl hp
  | mapped t hk hn hu hi =>
    cases hres
    refine ⟨_, placed_reserve hm hs hk hn hu hi, ?_, hs.own, fun _ ↦ not_listed_fresh hm hk hs hu⟩
    rw [reservedWith, if_pos hu]
    rfl
  | poolMapped t hk hn hr hp hi =>
    cases hres
    refine ⟨_, placed_pool hT hm hs hk hn hr hp hi, ?_, fun h ↦ absurd h (by decide),
      fun h ↦ absurd h (by decide)⟩
    rw [reservedWith, if_neg (by decide), State.setRegions_calls, vmPoolInit_calls]

theorem reserved_undo {cs : List KuCall} (h : ∀ ρ ∈ reserved cs, ρ.uid ≠ uid) :
    (⟨uid, p, n⟩ :: reserved cs).filter (fun ρ ↦ ρ.uid ≠ uid) = reserved cs := by
  rw [List.filter_cons_of_neg (by simp), List.filter_eq_self]
  intro ρ hρ
  simpa using h ρ hρ

theorem MapOutcome.undone (hs : k.Sound m n) (hbase : 0 ≤ k.reserveUid → k.reserveBase ≠ NULL)
    {res : ℕ × ℤ × State} (h : MapOutcome m k n prot res) (hnull : res.1 = NULL) :
    res.2.2.regions = m.regions ∧ reserved res.2.2.calls = reserved m.calls := by
  refine ⟨h.regions_of_null hnull hbase, ?_⟩
  cases h with
  | refused => rfl
  | commitFailed _ hu => exact reserved_undo (hs.own hu)
  | tableFull _ hu => exact reserved_undo (hs.own hu)
  | mapped t _ _ hu => exact absurd hnull (hbase hu)
  | poolFailed => exact congrArg reserved (vmPoolInit_calls m k)
  | poolMapped t _ _ _ hp => exact absurd hnull hp

theorem mmanMap_err (m : State) (k : Answers) (hint len : ℕ) (prot : BitVec 32)
    (hbase : 0 ≤ k.reserveUid → k.reserveBase ≠ NULL)
    (hnull : (mmanMap m k hint len prot).1 = NULL) : (mmanMap m k hint len prot).2.1 ≠ 0 := by
  have hinval : EINVAL ≠ 0 := by decide
  have hnomem : ENOMEM ≠ 0 := by decide
  have hnotsup : ENOTSUP ≠ 0 := by decide
  generalize hres : mmanMap m k hint len prot = res at hnull ⊢
  unfold mmanMap at hres
  dsimp only at hres
  split at hres
  · subst hres
    exact hinval
  split at hres
  · subst hres
    exact hnomem
  split at hres
  · subst hres
    exact hnotsup
  split at hres
  · split at hres
    · subst hres
      exact hnomem
    next hu =>
    split at hres
    · subst hres
      exact hnomem
    split at hres
    · subst hres
      exact hnomem
    · subst hres
      exact absurd hnull (hbase (by omega))
  · split at hres
    · subst hres
      exact hnomem
    split at hres
    · subst hres
      exact hnomem
    next hp =>
    split at hres
    · subst hres
      exact hnomem
    · subst hres
      exact absurd hnull hp

theorem unmapLoop_only {s e : ℕ} {t₁ t₂ : List Region} {x : Region} (m : State) (ret : ℤ)
    (hf : ∀ r ∈ t₁ ++ x :: t₂, r.addr + r.len < 2 ^ 32) (hno : ∀ r ∈ t₁ ++ t₂, ¬ Meets s e r)
    (hx : Meets s e x) (hall : carve s e x = []) :
    unmapLoop s e m ret [] (t₁ ++ x :: t₂) = (0, (releaseReservation
      ((decommitPart s e x m).setRegions (t₁ ++ t₂)) x.uid).setRegions (t₁ ++ t₂)) := by
  rw [List.forall_mem_append, List.forall_mem_cons] at hf
  rw [List.forall_mem_append] at hno
  have hi : ¬ Inside s e x := by
    intro hi
    unfold Inside at hi
    have hmem : { x with len := s - x.addr } ∈ carve s e x := by
      unfold Meets at hx
      rw [carve, if_neg (by omega), if_pos hi.1]
      exact List.mem_append_left _ (List.mem_singleton_self _)
    rw [hall] at hmem
    cases hmem
  rw [unmapLoop_skips m ret hf.1 hno.1, unmapLoop_trim hf.2.1 hx hi, if_pos hall, hall,
    List.nil_append, List.append_nil, unmapLoop_none _ 0 hf.2.2 hno.2]

theorem carve_whole {s e : ℕ} {r : Region} (hs : s ≤ r.addr) (he : r.addr + r.len ≤ e)
    (hpos : 0 < r.len) : carve s e r = [] := by
  rw [carve, if_neg (by omega), if_neg (by omega), if_neg (by omega), List.nil_append]

theorem Mapped.unmap (hT : Keeps T) (hm : Inv T m) (hmap : Mapped m (pageAlign len) prot p uid m')
    (hready : m'.ready = true) (hpos : ∀ r ∈ m.regions, 0 < r.len) (mem : ℕ → UInt8) :
    (mmanUnmap { m' with mem := mem } p len).2.regions = m.regions ∧
      reserved (mmanUnmap { m' with mem := mem } p len).2.calls = reserved m.calls := by
  have hn := hmap.pos
  have hend : addU p (pageAlign len) = p + pageAlign len := Nat.mod_eq_of_lt hmap.fits
  obtain ⟨-, t₁, t₂, ht, ht', -, -⟩ := regionInsert_some hmap.insert
  have hf : ∀ r ∈ t₁ ++ ⟨p, pageAlign len, uid, prot⟩ :: t₂, r.addr + r.len < 2 ^ 32 := by
    rw [← ht']
    exact forall_insert hmap.insert hmap.fits (hT.fits hm.table)
  have hno : ∀ r ∈ t₁ ++ t₂, ¬ Meets p (p + pageAlign len) r := by
    intro r hr
    rw [← ht] at hr
    have := hmap.apart r hr
    have := hpos r hr
    unfold Meets
    omega
  have hwhole : carve p (p + pageAlign len) ⟨p, pageAlign len, uid, prot⟩ = [] :=
    carve_whole le_rfl le_rfl hn
  have hmeet : Meets p (p + pageAlign len) ⟨p, pageAlign len, uid, prot⟩ := by
    constructor <;> dsimp only <;> omega
  have hl : pageAlign len ≠ 0 := by omega
  have heq : mmanUnmap { m' with mem := mem } p len = _ := mmanUnmap_eq hl hready
  rw [heq, hend]
  dsimp only
  rw [ht', unmapLoop_only _ (-1) hf hno hmeet hwhole]
  refine ⟨ht.symm, ?_⟩
  rw [State.unlock_calls, State.setRegions_calls]
  have hres := hmap.reserved_eq
  unfold reservedWith at hres
  unfold releaseReservation
  split
  · next hu =>
    have hu : uid < 0 := hu
    rw [if_neg (by omega)] at hres
    rw [State.setRegions_calls, reserved_decommitPart]
    exact hres
  · next hu =>
    have hu : 0 ≤ uid := not_lt.mp hu
    rw [if_neg, State.call_calls, reserved, State.setRegions_calls, reserved_decommitPart]
    · rw [if_pos hu] at hres
      change (reserved m'.calls).filter _ = _
      rw [hres]
      exact reserved_undo (hmap.own hu)
    · rw [State.setRegions_regions, uidListed_iff, ← ht]
      exact hmap.unlisted hu

end Undo

/-- What a new mapping holds: zeros, or the bytes of the file as far as the reads have reached, and
zeros up to the end of its last page. -/
inductive Filled (pread : Pread) (file : List UInt8) (flags : BitVec 32) (off : ℤ) (len p : ℕ)
    (mem : ℕ → UInt8) : Prop
  | zeros : flags &&& MAP_ANONYMOUS ≠ 0 → (∀ x < pageAlign len, mem (p + x) = 0) →
      Filled pread file flags off len p mem
  | contents (done : ℕ) : flags &&& MAP_ANONYMOUS = 0 → done ≤ len →
      ReadsEnd pread off.toNat len (.ok done) →
      (∀ x < done, file[off.toNat + x]? = some (mem (p + x))) →
      (∀ x, done ≤ x → x < pageAlign len → mem (p + x) = 0) →
      Filled pread file flags off len p mem

/-- What `mmap` promises when it returns `p`. -/
structure Delivered (m : State) (pread : Pread) (file : List UInt8) (len : ℕ)
    (prot flags : BitVec 32) (off : ℤ) (p : ℕ) (m' : State) : Prop where
  entry : ∃ uid, regionInsert m.regions p (pageAlign len) uid prot = some m'.regions
  apart : ∀ r ∈ m.regions, r.addr + r.len ≤ p ∨ p + pageAlign len ≤ r.addr
  long : 0 < len ∧ len ≤ pageAlign len
  bytes : Filled pread file flags off len p m'.mem

/-- The step of `mmap` that fails, and its `errno`. -/
inductive FailedStep (m : State) (k : Answers) (pread : Pread) (addr len : ℕ)
    (prot flags : BitVec 32) (fd off : ℤ) : ℤ → Prop
  | argument (errno : ℤ) : mmapArgs len prot flags fd off = some errno →
      FailedStep m k pread addr len prot flags fd off errno
  | mapping (errno : ℤ) (m' : State) :
      mmanMap m k (if flags &&& MAP_FIXED ≠ 0 then addr else NULL) len (prot ||| PROT_WRITE) =
        (NULL, errno, m') →
      FailedStep m k pread addr len prot flags fd off errno
  | reading (errno : ℤ) : flags &&& MAP_ANONYMOUS = 0 →
      ReadsEnd pread off.toNat len (.error errno) →
      FailedStep m k pread addr len prot flags fd off errno

section Call

variable {pread : Pread} {file : List UInt8} {m m' : State} {k : Answers} {p addr len : ℕ}
  {uid fd off errno : ℤ} {prot flags : BitVec 32}

theorem le_pageAlign (hlen : len < 2 ^ 32) (h : 0 < pageAlign len) :
    0 < len ∧ len ≤ pageAlign len := by
  have hz := pageAlign_eq_zero hlen
  unfold pageAlign addU at *
  omega

theorem mmapFill_same (m : State) (p len : ℕ) (flags : BitVec 32) (off : ℤ)
    (hread : Serves pread file) : (mmapFill m pread p len flags off).2 =
      { m with mem := (mmapFill m pread p len flags off).2.mem } := by
  obtain ⟨-, hsame, -⟩ := readLoop_start m p off.toNat len hread
  unfold mmapFill
  split
  · rfl
  rcases hloop : readLoop pread p off.toNat len 0 0 m with ⟨_ | done, m₁⟩
  · rw [hloop] at hsame
    exact hsame
  · rw [hloop] at hsame
    dsimp only at hsame ⊢
    rw [hsame]
    rfl

theorem mmapFill_error (hread : Serves pread file)
    (h : (mmapFill m pread p len flags off).1 = .error errno) :
    flags &&& MAP_ANONYMOUS = 0 ∧ ReadsEnd pread off.toNat len (.error errno) := by
  obtain ⟨hend, -⟩ := readLoop_start m p off.toNat len hread
  unfold mmapFill at h
  split at h
  · cases h
  next hanon =>
  rw [not_not] at hanon
  rcases hloop : readLoop pread p off.toNat len 0 0 m with ⟨_ | done, m₁⟩
  · rw [hloop] at h hend
    cases h
    exact ⟨hanon, hend⟩
  · rw [hloop] at h
    cases h

theorem mmapFill_ok (hread : Serves pread file) (hlen : len ≤ pageAlign len)
    (h : (mmapFill m pread p len flags off).1 = .ok ()) :
    Filled pread file flags off len p (mmapFill m pread p len flags off).2.mem := by
  obtain ⟨hend, -, hok⟩ := readLoop_start m p off.toNat len hread
  have hlt := pageAlign_lt len
  unfold mmapFill at h ⊢
  split at h
  · next hanon =>
    rw [if_pos hanon]
    refine .zeros hanon fun x hx ↦ ?_
    rw [State.memset_mem, if_pos (by omega)]
  next hanon =>
  rw [if_neg hanon]
  rw [not_not] at hanon
  rcases hloop : readLoop pread p off.toNat len 0 0 m with ⟨_ | done, m₁⟩
  · rw [hloop] at h
    cases h
  rw [hloop] at hend hok
  obtain ⟨hle, hcopied⟩ := hok done rfl
  have hrest : subU (pageAlign len) done = pageAlign len - done := subU_eq hlt (by omega)
  dsimp only
  rw [hrest]
  refine .contents done hanon hle hend (fun x hx ↦ ?_) fun x hlo hhi ↦ ?_
  · rw [State.memset_mem, if_neg (by omega)]
    exact hcopied.bytes x hx
  · rw [State.memset_mem, if_pos (by omega)]

theorem Placed.withMem {n : ℕ} (h : Placed m n prot p uid m') (mem : ℕ → UInt8) :
    Placed m n prot p uid { m' with mem := mem } :=
  ⟨h.insert, h.pos, h.fits, h.aligned, h.apart, h.inPool, h.sameMode⟩

theorem mmanProtect_memory (m : State) (k : Answers) (p len : ℕ) (prot : BitVec 32) :
    (mmanProtect m k p len prot).2.mem = m.mem := by
  unfold mmanProtect
  dsimp only
  split <;> rfl

theorem Mapped.delivered (hinv : Inv InOrder m) {m₁ : State}
    (hmap : Mapped m (pageAlign len) (prot ||| PROT_WRITE) p uid m₁) (hready : m₁.ready = true)
    (hlen : len < 2 ^ 32) {mem : ℕ → UInt8} (hfilled : Filled pread file flags off len p mem) :
    Delivered m pread file len prot flags off p (if prot ||| PROT_WRITE ≠ prot
      then (mmanProtect { m₁ with mem := mem } k p len prot).2 else { m₁ with mem := mem }) := by
  have hplaced := hmap.toPlaced.withMem mem
  refine ⟨⟨uid, ?_⟩, hmap.apart, le_pageAlign hlen hmap.pos, ?_⟩
  · split
    · exact hplaced.protect hready hinv.table.fits hinv.table.pos prot
    · next hprot =>
      rw [not_not] at hprot
      rw [← hplaced.insert, hprot]
  · split
    · rwa [mmanProtect_memory]
    · exact hfilled

/-- `mmap` delivers what was asked for, or leaves the table and the blocks reserved as they were,
with the `errno` of the step that failed. -/
theorem mmap_delivers_or_undoes (hm : Reachable Request.Loose m) (hs : k.Sound m (pageAlign len))
    (hbase : 0 ≤ k.reserveUid → k.reserveBase ≠ NULL) (hlen : len < 2 ^ 32)
    (hread : Serves pread file) (h : mmap m k pread addr len prot flags fd off = (p, errno, m')) :
    (p ≠ MAP_FAILED → errno = 0 ∧ Delivered m pread file len prot flags off p m') ∧
    (p = MAP_FAILED → m'.regions = m.regions ∧ reserved m'.calls = reserved m.calls ∧
      FailedStep m k pread addr len prot flags fd off errno) := by
  have hinv := hm.inOrder
  unfold mmap at h
  split at h
  · next e hargs =>
    cases h
    exact ⟨fun h ↦ absurd rfl h, fun _ ↦ ⟨rfl, rfl, .argument _ hargs⟩⟩
  have hout := mmanMap_outcome m k (if flags &&& MAP_FIXED ≠ 0 then addr else NULL) len
    (prot ||| PROT_WRITE)
  have herr := mmanMap_err m k (if flags &&& MAP_FIXED ≠ 0 then addr else NULL) len
    (prot ||| PROT_WRITE) hbase
  rcases hmap : mmanMap m k (if flags &&& MAP_FIXED ≠ 0 then addr else NULL) len
    (prot ||| PROT_WRITE) with ⟨base, err, m₁⟩
  rw [hmap] at h hout herr
  dsimp only at h
  split at h
  · next hnull =>
    rw [if_pos (herr hnull)] at h
    cases h
    obtain ⟨hreg, hres⟩ := hout.undone hs hbase hnull
    exact ⟨fun h ↦ absurd rfl h, fun _ ↦ ⟨hreg, hres, .mapping _ _ (hnull ▸ hmap)⟩⟩
  next hnull =>
  obtain ⟨uid, hmapped⟩ := hout.mapped_of_ne_null keeps_inOrder hinv hs hnull
  have hready : m₁.ready = true := (hinv.map keeps_inOrder hs (pageAlign_mod len) hout).ready
  have hlong := le_pageAlign hlen hmapped.pos
  have hne : base ≠ MAP_FAILED := by
    have := hmapped.aligned
    unfold MAP_FAILED
    omega
  have hsame := mmapFill_same m₁ base len flags off hread
  rcases hfill : mmapFill m₁ pread base len flags off with ⟨e | _, m₂⟩
  · rw [hfill] at h hsame
    cases h
    obtain ⟨hanon, hend⟩ := mmapFill_error hread (congrArg Prod.fst hfill)
    obtain ⟨hreg, hres⟩ := hmapped.unmap keeps_inOrder hinv hready hinv.table.pos m₂.mem
    rw [← hsame] at hreg hres
    exact ⟨fun h ↦ absurd rfl h, fun _ ↦ ⟨hreg, hres, .reading _ hanon hend⟩⟩
  · rw [hfill] at h hsame
    cases h
    have hfilled := mmapFill_ok hread hlong.2 (congrArg Prod.fst hfill)
    rw [hfill] at hfilled
    dsimp only at hsame
    rw [hsame]
    exact ⟨fun _ ↦ ⟨rfl, hmapped.delivered hinv hready hlen hfilled⟩, fun h ↦ absurd h hne⟩

theorem mmap_reachable (hm : Reachable Request.Loose m) (hs : k.Sound m (pageAlign len))
    (hread : Serves pread file) :
    Reachable Request.Loose (mmap m k pread addr len prot flags fd off).2.2 := by
  have hinv := hm.inOrder
  obtain ⟨b, mem, hrun⟩ := hm
  refine ⟨b, mem, ?_⟩
  unfold mmap
  split
  · exact hrun
  have hout := mmanMap_outcome m k (if flags &&& MAP_FIXED ≠ 0 then addr else NULL) len
    (prot ||| PROT_WRITE)
  have hstep : Step Request.Loose m _ := .call m k
    (.map (if flags &&& MAP_FIXED ≠ 0 then addr else NULL) len (prot ||| PROT_WRITE)) trivial hs
  simp only [Request.run] at hstep
  rcases hmap : mmanMap m k (if flags &&& MAP_FIXED ≠ 0 then addr else NULL) len
    (prot ||| PROT_WRITE) with ⟨base, err, m₁⟩
  rw [hmap] at hout hstep
  have hrun₁ := hrun.tail hstep
  dsimp only
  split
  · exact hrun₁
  next hnull =>
  obtain ⟨uid, hplaced⟩ := hout.placed keeps_inOrder hinv hs hnull
  have hsame := mmapFill_same m₁ base len flags off hread
  have hrun₂ : ReflTransGen (Step Request.Loose) (initMman b mem)
      (mmapFill m₁ pread base len flags off).2 := by
    rw [hsame]
    exact hrun₁.tail (.store m₁ _)
  rcases hfill : mmapFill m₁ pread base len flags off with ⟨e | _, m₂⟩
  · rw [hfill] at hrun₂
    exact hrun₂.tail (.call m₂ k (.unmap base len) hplaced.aligned trivial)
  · rw [hfill] at hrun₂
    dsimp only
    split
    · exact hrun₂.tail (.call m₂ k (.protect base len prot) trivial trivial)
    · exact hrun₂

end Call

/-- A descriptor whose reads move one byte at a time and fail from the `n`-th call on. -/
def slowReads (file : List UInt8) (n : ℕ) : Pread := fun i pos size ↦
  if n ≤ i then .failed EBADF else .moved ((file.drop pos).take (min 1 size))

theorem slowReads_serves (file : List UInt8) (n : ℕ) : Serves (slowReads file n) file := by
  intro i pos size data h
  unfold slowReads at h
  split at h
  · cases h
  · cases h
    exact ⟨(List.length_take_le _ _).trans (min_le_right _ _), List.take_prefix _ _⟩

theorem mmap_pool (pread : Pread) : ∃ m₁,
    (∀ done, (readLoop pread 0x81000000 0 5 0 0 m₁).1 = .ok done →
      (mmap (initMman false fun _ ↦ 7) poolAnswers pread 0 5 1 MAP_PRIVATE 3 0).1 ≠ MAP_FAILED) ∧
    ∀ e, (readLoop pread 0x81000000 0 5 0 0 m₁).1 = .error e →
      (mmap (initMman false fun _ ↦ 7) poolAnswers pread 0 5 1 MAP_PRIVATE 3 0).1 = MAP_FAILED ∧
      (mmap (initMman false fun _ ↦ 7) poolAnswers pread 0 5 1 MAP_PRIVATE 3 0).2.1 = e := by
  have hbase : (mmanMap (initMman false fun _ ↦ 7) poolAnswers NULL 5 3).1 = 0x81000000 := by
    decide +kernel
  have hargs : mmapArgs 5 1 MAP_PRIVATE 3 0 = none := by decide
  have hhint : (if MAP_PRIVATE &&& MAP_FIXED ≠ 0 then 0 else NULL) = NULL := by decide
  have hprot : (1 ||| PROT_WRITE : BitVec 32) = 3 := by decide
  have hanon : ¬ MAP_PRIVATE &&& MAP_ANONYMOUS ≠ 0 := by decide
  have hne : 0x81000000 ≠ MAP_FAILED := by decide
  have hnull : 0x81000000 ≠ NULL := by decide
  rcases hmap : mmanMap (initMman false fun _ ↦ 7) poolAnswers NULL 5 3 with ⟨p, err, m₁⟩
  rw [hmap] at hbase
  dsimp only at hbase
  subst hbase
  refine ⟨m₁, ?_⟩
  rw [mmap, hargs]
  dsimp only
  rw [hhint, hprot, hmap]
  dsimp only
  rw [if_neg hnull, mmapFill, if_neg hanon, Int.toNat_zero]
  rcases readLoop pread 0x81000000 0 5 0 0 m₁ with ⟨_ | done, m₂⟩
  · refine ⟨fun done h ↦ (by cases h), fun e h ↦ ?_⟩
    cases h
    exact ⟨rfl, rfl⟩
  · exact ⟨fun _ _ ↦ hne, fun e h ↦ (by cases h)⟩

/-- Three bytes are there for a mapping of five; a read that fails takes the mapping back. -/
theorem mmap_delivers_or_undoes_pool :
    (∃ p m', Delivered (initMman false fun _ ↦ 7) (slowReads [1, 2, 3] 9) [1, 2, 3] 5 1
      MAP_PRIVATE 0 p m') ∧
    ∃ m', mmap (initMman false fun _ ↦ 7) poolAnswers (slowReads [1, 2, 3] 2) 0 5 1 MAP_PRIVATE
      3 0 = (MAP_FAILED, EBADF, m') ∧ m'.regions = [] := by
  have hinit : Reachable Request.Loose (initMman false fun _ ↦ 7) := ⟨false, _, .refl⟩
  constructor
  · obtain ⟨m₁, hok, -⟩ := mmap_pool (slowReads [1, 2, 3] 9)
    have hp := hok 3 (by simp [readLoop, slowReads])
    rcases hres : mmap (initMman false fun _ ↦ 7) poolAnswers (slowReads [1, 2, 3] 9) 0 5 1
      MAP_PRIVATE 3 0 with ⟨p, e, m'⟩
    rw [hres] at hp
    exact ⟨p, m', ((mmap_delivers_or_undoes hinit (poolAnswers_sound _ _)
      (fun h ↦ absurd h (by decide)) (by decide) (slowReads_serves _ _) hres).1 hp).2⟩
  · obtain ⟨m₁, -, hfail⟩ := mmap_pool (slowReads [1, 2, 3] 2)
    obtain ⟨hp, he⟩ := hfail EBADF (by simp [readLoop, slowReads])
    rcases hres : mmap (initMman false fun _ ↦ 7) poolAnswers (slowReads [1, 2, 3] 2) 0 5 1
      MAP_PRIVATE 3 0 with ⟨p, e, m'⟩
    rw [hres] at hp he
    cases hp
    cases he
    exact ⟨m', rfl, ((mmap_delivers_or_undoes hinit (poolAnswers_sound _ _)
      (fun h ↦ absurd h (by decide)) (by decide) (slowReads_serves _ _) hres).2 rfl).1⟩

end SceLibcPosix.Mman
