import Mathlib.Logic.Relation
import SceLibcPosix.Descriptor.Outcomes
import SceLibcPosix.Lib.References

namespace SceLibcPosix.Descriptor

open Errno VitaError References Relation

/-- The table and the grabs of each entry that calls in flight have not dropped yet. -/
structure World where
  table : Table
  grabs : Entry → ℕ

def World.total (w : World) (i : Entry) : ℕ := refs w.table.fdmap i + w.grabs i

/-- What one caller does at a time: one of the operations under the mutex, with the result of the
close routine where it may be called, or a store of a handle into an entry. -/
inductive Op
  | acquire
  | fill (i : Entry) (uid : ℤ) (type : DescriptorTypes)
  | release (fd r : ℤ)
  | duplicate (fd minfd : ℤ)
  | duplicate2 (oldfd : ℤ) (newfd : Slot) (r : ℤ)
  | grab (fd : ℤ)
  | drop (i : Entry) (r : ℤ)
deriving DecidableEq, Repr

def World.grabbed (w : World) : Option Entry × Table → World
  | (none, t) => { w with table := t }
  | (some i, t) => ⟨t, Function.update w.grabs i (w.grabs i + 1)⟩

def Op.run (net : NetErrno → ℤ) (w : World) : Op → World
  | .acquire => { w with table := (acquireDescriptor w.table).2 }
  | .fill i uid type => { w with table := w.table.fill i uid type }
  | .release fd r => { w with table := (releaseDescriptor net w.table fd r).2 }
  | .duplicate fd minfd => { w with table := (duplicateDescriptor w.table fd minfd).2 }
  | .duplicate2 oldfd newfd r =>
    { w with table := (duplicateDescriptor2 net w.table oldfd newfd r).2 }
  | .grab fd => w.grabbed (fdGrab w.table fd)
  | .drop i r => ⟨(fdDrop net w.table i r).2, Function.update w.grabs i (w.grabs i - 1)⟩

/-- A drop gives back a grab. -/
def Op.Matched (w : World) : Op → Prop
  | .drop i _ => 0 < w.grabs i
  | _ => True

def Op.result : Op → Option ℤ
  | .release _ r | .duplicate2 _ _ r | .drop _ r => some r
  | _ => none

def Op.Succeeds (op : Op) : Prop := ∀ r ∈ op.result, 0 ≤ r

inductive Step (net : NetErrno → ℤ) (Ok : World → Op → Prop) : World → World → Prop
  | op (w : World) (op : Op) (hm : op.Matched w) (hok : Ok w op) : Step net Ok w (op.run net w)

def Reachable (net : NetErrno → ℤ) (Ok : World → Op → Prop) (w : World) : Prop :=
  ∃ stdin stdout stderr, ReflTransGen (Step net Ok) ⟨initFd stdin stdout stderr, fun _ ↦ 0⟩ w

/-- Every reference to an entry is counted. -/
def Counts (t : Table) (g : Entry → ℕ) : Prop := ∀ i, (t.pool i).refCount = refs t.fdmap i + g i

/-- A release that gives up the last reference of an entry reports a failure of the close routine.
-/
def Reports (net : NetErrno → ℤ) (t : Table) (fd r : ℤ) : Prop :=
  ∀ s i, openAt t fd = some (s, i) → (t.pool i).refCount = 1 → r < 0 →
    Reported net (t.pool i).type r

/-- The operations that do not lose an entry: `close` and `dup2` see the failure of a close routine,
and no close routine fails under a call in flight. -/
def Op.Clean (net : NetErrno → ℤ) (w : World) : Op → Prop
  | .release fd r => Reports net w.table fd r
  | .duplicate2 oldfd newfd r => ∀ s i, openAt w.table oldfd = some (s, i) → s ≠ newfd →
      Reports net w.table newfd.val r
  | .drop i r => (w.table.pool i).refCount = 1 → 0 ≤ r
  | _ => True

section Table

variable {net : NetErrno → ℤ} {t : Table} {g : Entry → ℕ} {i j : Entry} {s : Slot} {fd r : ℤ}

theorem counts_initFd (a b c : ℤ) : Counts (initFd a b c) fun _ ↦ 0 := by
  intro i
  have hrefs : refs (initFd a b c).fdmap i = if i.val < 3 then 1 else 0 :=
    refs_self (fun s : Entry ↦ s.val < 3) i
  rw [hrefs]
  unfold initFd
  dsimp only
  split
  · next h => simp [h]
  · next h => simp [h]
  · next h => simp [h]
  · next h₀ h₁ h₂ =>
    have h₃ : ¬ i.val < 3 := by
      simp only [imp_false] at h₀ h₁ h₂
      omega
    rw [if_neg h₃]
    rfl

theorem Counts.setSlot_some (hc : Counts t g) (hs : t.fdmap s = none) :
    Counts ((t.setSlot s (some i)).addRef i 1) g := by
  intro j
  rw [Table.addRef_refCount, Table.addRef_fdmap, Table.setSlot_pool, Table.setSlot_fdmap,
    refs_set hs, hc j]
  by_cases h : j = i
  · subst h
    simp only [if_true]
    omega
  · simp only [h, Ne.symm h, if_false]
    omega

theorem Counts.acquire (hc : Counts t g) {res : Option Slot × Table} (h : AcquireOutcome t res) :
    Counts res.2 g := by
  cases h with
  | full => exact hc
  | taken s i hs hi =>
    have := hc.setSlot_some hs.free (i := i)
    rwa [Table.addRef, Table.setSlot_pool, hi] at this

theorem Counts.release (hc : Counts t g) {res : ℤ × Table} (h : ReleaseOutcome net t fd r res)
    (h32 : r < 0 → InInt r) (hrep : Reports net t fd r) : Counts res.2 g := by
  cases h with
  | refused => exact hc
  | failed => exact hc
  | shared s i h href =>
    intro j
    have hrefs := refs_clear (openAt_eq_some.mp h).2 j
    have hj := hc j
    simp only [Table.setSlot_pool, Table.addRef_refCount, Table.setSlot_fdmap, Table.addRef_fdmap]
    by_cases hij : j = i
    · subst hij
      simp only [if_true] at hrefs ⊢
      omega
    · simp only [hij, Ne.symm hij, if_false] at hrefs ⊢
      omega
  | closed s i h href =>
    intro j
    have hrefs := refs_clear (openAt_eq_some.mp h).2 j
    have hj := hc j
    simp only [Table.setSlot_pool, Table.setEntry_pool, Table.setSlot_fdmap, Table.setEntry_fdmap,
      Table.call_fdmap, Table.call_pool]
    by_cases hij : j = i
    · subst hij
      simp only [Function.update_self, if_true] at hrefs ⊢
      omega
    · simp only [Function.update_of_ne hij, Ne.symm hij, if_false] at hrefs ⊢
      omega
  | lost s i h href hr hno => exact absurd (hrep s i h href hr) (hno (h32 hr))

theorem Counts.duplicate (hc : Counts t g) {minfd : ℤ} {res : Except (Option ℤ) Slot × Table}
    (h : DuplicateOutcome t fd minfd res) : Counts res.2 g := by
  cases h with
  | refused => exact hc
  | full => exact hc
  | shared s i h s' hs' => exact hc.setSlot_some hs'.free

theorem Counts.duplicate2 (hc : Counts t g) {newfd : Slot} {res : Option Slot × Table}
    (h : Duplicate2Outcome net t fd newfd r res) (h32 : r < 0 → InInt r)
    (hrep : ∀ s i, openAt t fd = some (s, i) → s ≠ newfd → Reports net t newfd.val r) :
    Counts res.2 g := by
  cases h with
  | refused => exact hc
  | same => exact hc
  | busy s i h hs res hres => exact hc.release hres h32 (hrep s i h hs)
  | moved s i h hs res hres hfree => exact (hc.release hres h32 (hrep s i h hs)).setSlot_some hfree

theorem Counts.addRef (hc : Counts t g) {k : ℕ} {n : ℤ} (hk : (k : ℤ) = g i + n) :
    Counts (t.addRef i n) (Function.update g i k) := by
  intro j
  rw [Table.addRef_refCount, Table.addRef_fdmap, hc j]
  by_cases h : j = i
  · subst h
    simp only [if_true, Function.update_self]
    omega
  · simp only [h, if_false, Function.update_of_ne h]
    omega

theorem Counts.grab (hc : Counts t g) (i : Entry) :
    Counts (t.addRef i 1) (Function.update g i (g i + 1)) := hc.addRef (Nat.cast_succ _)

theorem Counts.drop (hc : Counts t g) (hg : 0 < g i) {res : ℤ × Table}
    (h : DropOutcome net t i r res) (hr : (t.pool i).refCount = 1 → 0 ≤ r) :
    Counts res.2 (Function.update g i (g i - 1)) := by
  cases h with
  | shared => exact hc.addRef (by omega)
  | closed href =>
    intro j
    have := hc i
    by_cases h : j = i
    · subst h
      simp only [Table.setEntry_pool, Function.update_self, Table.setEntry_fdmap, Table.call_fdmap]
      omega
    · simp [h, hc j]
  | failed ret href hneg =>
    have := hr href
    omega

end Table

/-- A step after which some entries are without references. Where it takes an entry's last one, it
closes what the entry stands for, and otherwise it closes nothing. -/
def ClosesLast (last : Entry → Prop) (t t' : Table) : Prop :=
  (∃ i r, (∀ j, last j ↔ j = i) ∧ t'.calls = .close (t.pool i).object r :: t.calls) ∨
    (∀ j, ¬ last j) ∧ t'.calls = t.calls

def Drained (t t' : Table) (i : Entry) : Prop :=
  0 < (t.pool i).refCount ∧ (t'.pool i).refCount = 0

section Closing

variable {net : NetErrno → ℤ} {t t' : Table} {g : Entry → ℕ} {i : Entry} {s : Slot} {fd r : ℤ}

theorem closesLast_of_le (hle : ∀ j, (t.pool j).refCount ≤ (t'.pool j).refCount)
    (hcalls : t'.calls = t.calls) : ClosesLast (Drained t t') t t' := by
  refine .inr ⟨fun j hj ↦ ?_, hcalls⟩
  have := hle j
  have := hj.1
  have := hj.2
  omega

theorem closesLast_addRef (n : ℤ) (hi : (t.pool i).refCount + n ≠ 0) :
    ClosesLast (Drained t (t.addRef i n)) t (t.addRef i n) := by
  refine .inr ⟨fun j hj ↦ ?_, rfl⟩
  obtain ⟨hpos, hzero⟩ := hj
  rw [Table.addRef_refCount] at hzero
  split_ifs at hzero with h
  · exact hi (h ▸ hzero)
  · omega

theorem closesLast_closed (hi : (t.pool i).refCount = 1) {t' : Table}
    (hpool : t'.pool = Function.update t.pool i {})
    (hcalls : t'.calls = .close (t.pool i).object r :: t.calls) :
    ClosesLast (Drained t t') t t' := by
  refine .inl ⟨i, r, fun j ↦ ?_, hcalls⟩
  rw [Drained, hpool]
  by_cases h : j = i
  · subst h
    simp [hi]
  · simp only [Function.update_of_ne h, h, iff_false]
    omega

theorem AcquireOutcome.closesLast {res : Option Slot × Table} (h : AcquireOutcome t res) :
    ClosesLast (Drained t res.2) t res.2 := by
  cases h with
  | full => exact closesLast_of_le (fun _ ↦ le_rfl) rfl
  | taken s i hs hi =>
    refine closesLast_of_le (fun j ↦ ?_) rfl
    by_cases h : j = i
    · subst h
      simp [hi]
    · simp [h]

theorem DuplicateOutcome.closesLast {minfd : ℤ} {res : Except (Option ℤ) Slot × Table}
    (h : DuplicateOutcome t fd minfd res) : ClosesLast (Drained t res.2) t res.2 := by
  cases h with
  | refused | full => exact closesLast_of_le (fun _ ↦ le_rfl) rfl
  | shared s i h s' hs' =>
    refine closesLast_of_le (fun j ↦ ?_) rfl
    rw [Table.addRef_refCount, Table.setSlot_pool]
    split_ifs <;> omega

theorem GrabOutcome.closesLast {res : Option Entry × Table} (h : GrabOutcome t fd res) :
    ClosesLast (Drained t res.2) t res.2 := by
  cases h with
  | refused => exact closesLast_of_le (fun _ ↦ le_rfl) rfl
  | grabbed s i h =>
    refine closesLast_of_le (fun j ↦ ?_) rfl
    rw [Table.addRef_refCount]
    split_ifs <;> omega

theorem DropOutcome.closesLast {res : ℤ × Table} (h : DropOutcome net t i r res) (hr : 0 ≤ r) :
    ClosesLast (Drained t res.2) t res.2 := by
  cases h with
  | shared h => exact closesLast_addRef (-1) (by omega)
  | closed h => exact closesLast_closed h rfl rfl
  | failed ret h hneg => omega

theorem ReleaseOutcome.closesLast {res : ℤ × Table} (h : ReleaseOutcome net t fd r res)
    (hc : Counts t g) (hr : 0 ≤ r) : ClosesLast (Drained t res.2) t res.2 := by
  cases h with
  | refused => exact closesLast_of_le (fun _ ↦ le_rfl) rfl
  | shared s i h href =>
    have hpos : 0 < refs t.fdmap i := refs_pos.mpr ⟨s, (openAt_eq_some.mp h).2⟩
    have := hc i
    exact closesLast_addRef (-1) (by omega)
  | closed s i h href => exact closesLast_closed href rfl rfl
  | failed s i h href hneg => omega
  | lost s i h href hneg => omega

theorem Duplicate2Outcome.closesLast {newfd : Slot} {res : Option Slot × Table}
    (h : Duplicate2Outcome net t fd newfd r res) (hc : Counts t g) (hr : 0 ≤ r) :
    ClosesLast (Drained t res.2) t res.2 := by
  cases h with
  | refused => exact closesLast_of_le (fun _ ↦ le_rfl) rfl
  | same => exact closesLast_of_le (fun _ ↦ le_rfl) rfl
  | busy s i h hs res hres => exact hres.closesLast hc hr
  | moved s i h hs res hres hfree =>
    have hc' := hc.release hres (by omega) fun _ _ _ _ hneg ↦ by omega
    have hne : (s.val : ℤ) ≠ newfd.val := fun h ↦ hs (Fin.ext (by omega))
    -- the entry keeps the slot it is shared from, so the release has not closed it
    have hpos : 0 < refs res.2.fdmap i :=
      refs_pos.mpr ⟨s, (releaseDescriptor_fdmap hres hne).trans (openAt_eq_some.mp h).2⟩
    have hi := hc' i
    have hiff : ∀ j, Drained t ((res.2.setSlot newfd (some i)).addRef i 1) j ↔
        Drained t res.2 j := by
      intro j
      rw [Drained, Drained, Table.addRef_refCount, Table.setSlot_pool]
      by_cases hij : j = i
      · subst hij
        rw [if_pos rfl]
        omega
      · rw [if_neg hij, add_zero]
    simp only [ClosesLast, hiff]
    exact hres.closesLast hc hr

end Closing

section World

variable {net : NetErrno → ℤ} {w : World} {op : Op}

theorem Op.Succeeds.clean (h : op.Succeeds) : op.Clean net w := by
  cases op with
  | release fd r => exact fun _ _ _ _ hr ↦ absurd (h r rfl) (by omega)
  | duplicate2 oldfd newfd r => exact fun _ _ _ _ _ _ _ _ hr ↦ absurd (h r rfl) (by omega)
  | drop i r => exact fun _ ↦ h r rfl
  | _ => trivial

theorem Counts.run (hc : Counts w.table w.grabs) (hm : op.Matched w)
    (h32 : ∀ r ∈ op.result, r < 0 → InInt r) (hok : op.Clean net w) :
    Counts (op.run net w).table (op.run net w).grabs := by
  cases op with
  | acquire => exact hc.acquire (acquireDescriptor_outcome _)
  | fill i uid type =>
    intro j
    have hj := hc j
    by_cases h : j = i
    · subst h
      simpa [Op.run, Table.fill] using hj
    · simpa [Op.run, Table.fill, h] using hj
  | release fd r => exact hc.release (releaseDescriptor_outcome net _ fd r) (h32 r rfl) hok
  | duplicate fd minfd => exact hc.duplicate (duplicateDescriptor_outcome _ fd minfd)
  | duplicate2 oldfd newfd r =>
    exact hc.duplicate2 (duplicateDescriptor2_outcome net _ oldfd newfd r) (h32 r rfl) hok
  | grab fd =>
    have hout := fdGrab_outcome w.table fd
    change Counts (w.grabbed (fdGrab w.table fd)).table (w.grabbed (fdGrab w.table fd)).grabs
    generalize fdGrab w.table fd = res at hout ⊢
    cases hout with
    | refused => exact hc
    | grabbed s i => exact hc.grab i
  | drop i r => exact hc.drop hm (fdDrop_outcome net _ i r) hok

theorem Counts.closesLast (hc : Counts w.table w.grabs) (hok : op.Succeeds) :
    ClosesLast (Drained w.table (op.run net w).table) w.table (op.run net w).table := by
  cases op with
  | acquire => exact (acquireDescriptor_outcome w.table).closesLast
  | fill i uid type =>
    refine closesLast_of_le (fun j ↦ ?_) rfl
    by_cases h : j = i
    · subst h
      simp [Op.run, Table.fill]
    · simp [Op.run, Table.fill, h]
  | release fd r => exact (releaseDescriptor_outcome net _ fd r).closesLast hc (hok r rfl)
  | duplicate fd minfd => exact (duplicateDescriptor_outcome w.table fd minfd).closesLast
  | duplicate2 oldfd newfd r =>
    exact (duplicateDescriptor2_outcome net _ oldfd newfd r).closesLast hc (hok r rfl)
  | grab fd =>
    have hgrab := (fdGrab_outcome w.table fd).closesLast
    change ClosesLast (Drained _ (w.grabbed (fdGrab w.table fd)).table) _
      (w.grabbed (fdGrab w.table fd)).table
    generalize fdGrab w.table fd = res at hgrab ⊢
    obtain ⟨i | i, t⟩ := res
    · exact hgrab
    · exact hgrab
  | drop i r => exact (fdDrop_outcome net w.table i r).closesLast (hok r rfl)

theorem Reachable.counts {Ok : World → Op → Prop} (hclean : ∀ {w op}, Ok w op →
    (∀ r ∈ op.result, r < 0 → InInt r) ∧ op.Clean net w) (h : Reachable net Ok w) :
    Counts w.table w.grabs := by
  obtain ⟨a, b, c, h⟩ := h
  induction h with
  | refl => exact counts_initFd a b c
  | tail _ hs ih =>
    cases hs with
    | op o hm hok => exact ih.run hm (hclean hok).1 (hclean hok).2

/-- The table after every run in which the close routines succeed. -/
theorem reference_count_conservation (h : Reachable net (fun _ ↦ Op.Succeeds) w) :
    (∀ i, (w.table.pool i).refCount = w.total i) ∧
    (∀ s, (acquireDescriptor w.table).1 = some s →
      ∃ i, (acquireDescriptor w.table).2.fdmap s = some i ∧ w.total i = 0) ∧
    ∀ op : Op, op.Matched w → op.Succeeds →
      ClosesLast (fun i ↦ 0 < w.total i ∧ (op.run net w).total i = 0) w.table
        (op.run net w).table := by
  have hclean : ∀ {w : World} {op : Op}, op.Succeeds →
      (∀ r ∈ op.result, r < 0 → InInt r) ∧ op.Clean net w := fun h ↦
    ⟨fun r hr hneg ↦ absurd (h r hr) (by omega), h.clean⟩
  have hc := h.counts hclean
  have htotal : ∀ i, (w.table.pool i).refCount = w.total i := fun i ↦ by
    rw [hc i, World.total]
    omega
  refine ⟨htotal, fun s hs ↦ ?_, fun op hm hok ↦ ?_⟩
  · have hout := acquireDescriptor_outcome w.table
    generalize acquireDescriptor w.table = res at hout hs ⊢
    cases hout with
    | full => cases hs
    | taken s' i hs' hi =>
      obtain rfl := Option.some.inj hs
      refine ⟨i, by simp, ?_⟩
      have := htotal i
      omega
  · obtain ⟨h32, hok'⟩ := hclean (w := w) hok
    have hc' := hc.run hm h32 hok'
    have hiff : ∀ i, (0 < w.total i ∧ (op.run net w).total i = 0) ↔
        Drained w.table (op.run net w).table i := by
      intro i
      have := htotal i
      have := hc' i
      unfold Drained World.total at *
      omega
    simp only [hiff]
    exact hc.closesLast hok

end World

def afterClose : World :=
  Op.run 0 (Op.run 0 (Op.run 0 (Op.run 0 ⟨initFd 0 1 2, fun _ ↦ 0⟩ .acquire) (.duplicate 3 0))
    (.grab 4)) (.release 3 0)

theorem afterClose_reachable : Reachable 0 (fun _ ↦ Op.Succeeds) afterClose := by
  refine ⟨0, 1, 2, .tail (.tail (.tail (.single (.op _ .acquire trivial ?_))
    (.op _ (.duplicate 3 0) trivial ?_)) (.op _ (.grab 4) trivial ?_))
    (.op _ (.release 3 0) trivial ?_)⟩
  all_goals simp [Op.Succeeds, Op.result]

theorem reference_count_conservation_afterClose :
    (afterClose.table.pool 3).refCount = 2 ∧ afterClose.total 3 = 2 ∧
      ClosesLast (fun i ↦ 0 < afterClose.total i ∧ (Op.run 0 afterClose (.release 4 0)).total i = 0)
        afterClose.table (Op.run 0 afterClose (.release 4 0)).table := by
  have h := reference_count_conservation afterClose_reachable
  have htwo : (afterClose.table.pool 3).refCount = 2 := by decide +kernel
  have htotal := h.1 3
  exact ⟨htwo, by omega, h.2.2 (.release 4 0) trivial (by simp [Op.Succeeds, Op.result])⟩

end SceLibcPosix.Descriptor
