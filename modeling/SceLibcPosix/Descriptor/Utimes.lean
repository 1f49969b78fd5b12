import SceLibcPosix.Descriptor.Calls

namespace SceLibcPosix.Descriptor

open Errno VitaError Programs

structure Timeval where
  sec : ℤ
  usec : ℤ
deriving DecidableEq, Repr

/-- The times that `utimes` stores. It converts the modification time and then uses the access time
for both. -/
def utimesTimes : Option (Timeval × Timeval) → Call (Option (SceDateTime × SceDateTime))
  | some (atime, mtime) => do
    let (ret, dt₀) ← kernel (.convertTime atime.sec)
    if ret < 0 then return none
    else
      let dt₀ := { dt₀ with microsecond := atime.usec }
      let (ret, _) ← kernel (.convertTime mtime.sec)
      return if ret < 0 then none else some (dt₀, dt₀)
  | none => do
    let (ret, dt) ← kernel .currentClock
    return if ret < 0 then none else some (dt, dt)

/-- `utimes`, from the result of `__realpath` on. The failures translate a variable that is never
set; `ret` is its value. -/
def utimes (net : NetErrno → ℤ) (ret : ℤ) (fullPath : Except ℤ ℤ)
    (times : Option (Timeval × Timeval)) : Call Outcome :=
  match fullPath with
  | .error errno => return fail errno
  | .ok path => do
    let st ← kernel (.path path .sceFiosStatSync)
    if st < 0 then return fail (sceErrnoToErrno net ret .FIOS)
    else
      match ← utimesTimes times with
      | none => return fail (sceErrnoToErrno net ret .FIOS)
      | some (atime, mtime) =>
        let st ← kernel (.path path (.sceFiosChangeStatSync (.times atime mtime true true)))
        return if st < 0 then fail (sceErrnoToErrno net ret .FIOS) else ⟨0, none⟩

def utime (net : NetErrno → ℤ) (ret : ℤ) (fullPath : Except ℤ ℤ) (buf : Option (ℤ × ℤ)) :
    Call Outcome :=
  utimes net ret fullPath (buf.map fun b ↦ (⟨b.1, 0⟩, ⟨b.2, 0⟩))

def futimens (net : NetErrno → ℤ) (fd : ℤ) (times : Option (Timespec × Timespec)) : Call Outcome :=
  utimensat net fd times

def Timeval.timespec (t : Timeval) : Timespec := ⟨t.sec, .value (t.usec * 1000)⟩

/-- What `sceRtcConvertTime_tToDateTime` and `sceFiosDateFromSceDateTime` compute, and the current
time. -/
structure Clock where
  convert : ℤ → SceDateTime
  date : SceDateTime → ℤ
  now : SceDateTime

def Clock.stamp (c : Clock) (t : Timeval) : ℤ :=
  c.date { c.convert t.sec with microsecond := t.usec }

/-- What `sceFiosChangeStatSync` gets: `st_atime`, `st_mtime` and the bits for them. -/
structure Stamps where
  atime : ℤ
  mtime : ℤ
  setAtime : Bool
  setMtime : Bool
deriving DecidableEq, Repr

def Clock.stamps (c : Clock) : PathCall → Option Stamps
  | .sceFiosChangeStatSync (.times atime mtime setAtime setMtime) =>
    some ⟨c.date atime, c.date mtime, setAtime, setMtime⟩
  | _ => none

/-- The stamps that a call should hand over. -/
def Clock.wanted (c : Clock) : Option (Timeval × Timeval) → Stamps
  | none => ⟨c.date c.now, c.date c.now, true, true⟩
  | some (atime, mtime) => ⟨c.stamp atime, c.stamp mtime, true, true⟩

/-- The answers to a call for a file that is there, with a record of the stamps handed over, last
ones first. -/
def stamping (c : Clock) : Rules Ask Ask.Answer (List Stamps) where
  may _
    | .fault => False
    | _ => True
  can _
    | .grab _, x => x ≠ none
    | .load _, d => d.type ≠ .SOCKET ∧ d.type ≠ .PIPE
    | .kernel (.use _ _ .sceFiosFHStatSync), x => 0 ≤ x
    | .kernel (.path _ .sceFiosStatSync), x => 0 ≤ x
    | .kernel (.convertTime sec), x => 0 ≤ x.1 ∧ x.2 = c.convert sec
    | .kernel .currentClock, x => 0 ≤ x.1 ∧ x.2 = c.now
    | _, _ => True
  next s
    | .kernel (.path _ q), _ => (c.stamps q).toList ++ s
    | _, _ => s

/-- A call hands over these stamps, once. -/
def Stamped (c : Clock) (p : Call Outcome) (s : Stamps) : Prop :=
  p.Obeys (stamping c) [] fun _ s' ↦ s' = [s]

section

variable {α : Type} {c : Clock} {s : List Stamps} {q : KernelAsk} {i : Entry} {fd : ℤ}
  {net : NetErrno → ℤ} {post : α → List Stamps → Prop} {times : Option (Timeval × Timeval)}
  {stamps : Stamps}

theorem stamping_kernel {g : q.Answer → Call α} (hg : ∀ x, (stamping c).can s (.kernel q) x →
    (g x).Obeys (stamping c) ((stamping c).next s (.kernel q) x) post) :
    (kernel q >>= g).Obeys (stamping c) s post := ⟨trivial, hg⟩

theorem stamping_withFd {absent : Call α} {body : Entry → DescriptorTranslation → Call α}
    (hbody : ∀ i d, d.type ≠ .SOCKET → d.type ≠ .PIPE → (body i d).Obeys (stamping c) s post) :
    (withFd fd absent body).Obeys (stamping c) s post := by
  refine ⟨trivial, fun x hx ↦ ?_⟩
  cases x with
  | none => exact absurd rfl hx
  | some i => exact ⟨trivial, fun d hd ↦ hbody i d hd.1 hd.2⟩

theorem stamping_drop {g : ℤ → Call α} (hg : ∀ x, (g x).Obeys (stamping c) s post) :
    (drop i >>= g).Obeys (stamping c) s post := ⟨trivial, fun x _ ↦ hg x⟩

theorem stamping_change {path : ℤ} {change : PathCall} {p : ℤ → Call α}
    (hchange : c.stamps change = some stamps)
    (hp : ∀ x, (p x).Obeys (stamping c) [stamps] post) :
    (kernel (.path path change) >>= p).Obeys (stamping c) [] post := by
  refine stamping_kernel fun x _ ↦ ?_
  change (p x).Obeys (stamping c) ((c.stamps change).toList ++ []) post
  rw [hchange]
  exact hp x

theorem stamping_onPath {d : DescriptorTranslation} {getPath : Routine} {change : PathCall}
    {g : ℤ → Call α} (stamps : Stamps) (hchange : c.stamps change = some stamps)
    (hg : ∀ x, (g x).Obeys (stamping c) [stamps] post) :
    (onPath i d getPath change >>= g).Obeys (stamping c) [] post :=
  ⟨trivial, fun _ _ ↦ stamping_change hchange hg⟩

theorem stamping_toDateTime (t : Timeval) : (toDateTime t.timespec).Obeys (stamping c) s
    fun r s' ↦ (0 ≤ r.1 ∧ c.date r.2 = c.stamp t) ∧ s' = s := by
  refine stamping_kernel fun x hx ↦ ?_
  obtain ⟨hpos, hdate⟩ := hx
  refine ⟨⟨hpos, ?_⟩, rfl⟩
  rw [hdate, Clock.stamp, Int.mul_tdiv_cancel _ (by decide)]
  rfl

theorem stamping_newTimes (times : Option (Timeval × Timeval)) :
    (newTimes (times.map fun p ↦ (p.1.timespec, p.2.timespec))).Obeys (stamping c) s
      fun r s' ↦ (∃ dt, r = .ok dt ∧ c.wanted times = ⟨c.date dt.1, c.date dt.2, true, true⟩) ∧
        s' = s := by
  cases times with
  | none =>
    refine stamping_kernel fun x hx ↦ ?_
    obtain ⟨hpos, hnow⟩ := hx
    dsimp only
    rw [if_neg (not_lt.mpr hpos), hnow]
    exact ⟨⟨_, rfl, rfl⟩, rfl⟩
  | some p =>
    refine Program.obeys_bind.mpr ((stamping_toDateTime p.1).mono fun r s' hr ↦ ?_)
    obtain ⟨⟨hpos, hdate⟩, rfl⟩ := hr
    dsimp only
    rw [if_neg (not_lt.mpr hpos)]
    refine Program.obeys_bind.mpr ((stamping_toDateTime p.2).mono fun r' s'' hr' ↦ ?_)
    obtain ⟨⟨hpos', hdate'⟩, rfl⟩ := hr'
    rw [if_neg (not_lt.mpr hpos')]
    exact ⟨⟨_, rfl, by rw [hdate, hdate']; rfl⟩, rfl⟩

theorem stamped_utimensat (net : NetErrno → ℤ) (fd : ℤ) (times : Option (Timeval × Timeval)) :
    Stamped c (utimensat net fd (times.map fun p ↦ (p.1.timespec, p.2.timespec)))
      (c.wanted times) := by
  refine stamping_withFd fun i d hsocket hpipe ↦ Program.obeys_bind.mpr (Program.Obeys.mono
    (?_ : Program.Obeys _ _ _ fun (r : ℤ) (s' : List Stamps) ↦ 0 ≤ r ∧ s' = []) fun r s' hr ↦ ?_)
  · cases htype : d.type with
    | SOCKET => exact absurd htype hsocket
    | PIPE => exact absurd htype hpipe
    | DIRECTORY => exact stamping_kernel fun _ _ ↦ ⟨trivial, fun x hx ↦ ⟨hx, rfl⟩⟩
    | TTY | FILE => exact ⟨trivial, fun x hx ↦ ⟨hx, rfl⟩⟩
  obtain ⟨hpos, rfl⟩ := hr
  rw [if_neg (not_lt.mpr hpos)]
  refine Program.obeys_bind.mpr ((stamping_newTimes times).mono fun r s' hr ↦ ?_)
  obtain ⟨⟨dt, rfl, hdt⟩, rfl⟩ := hr
  have hbits (t : Timespec × Timespec → Timespec)
      (ht : ∀ p : Timeval × Timeval, (t (p.1.timespec, p.2.timespec)).nsec ≠ .UTIME_OMIT) :
      ((times.map fun p ↦ (p.1.timespec, p.2.timespec)).all fun p ↦
        (t p).nsec ≠ .UTIME_OMIT) = true := by
    cases times with
    | none => rfl
    | some p => exact decide_eq_true (ht p)
  refine stamping_onPath (c.wanted times) ?_ fun _ ↦ stamping_drop fun _ ↦ rfl
  dsimp only
  rw [hbits Prod.fst fun _ ↦ Nsec.noConfusion, hbits Prod.snd fun _ ↦ Nsec.noConfusion, hdt]
  rfl

/-- The stamps that `utimes` hands over: the access time twice. -/
def Clock.given (c : Clock) : Option (Timeval × Timeval) → Stamps
  | none => c.wanted none
  | some (atime, _) => c.wanted (some (atime, atime))

theorem stamping_utimesTimes (times : Option (Timeval × Timeval)) :
    (utimesTimes times).Obeys (stamping c) s
      fun r s' ↦ (∃ dt, r = some dt ∧ c.given times = ⟨c.date dt.1, c.date dt.2, true, true⟩) ∧
        s' = s := by
  cases times with
  | none =>
    refine stamping_kernel fun x hx ↦ ?_
    obtain ⟨hpos, hnow⟩ := hx
    dsimp only
    rw [if_neg (not_lt.mpr hpos), hnow]
    exact ⟨⟨_, rfl, rfl⟩, rfl⟩
  | some p =>
    refine stamping_kernel fun x hx ↦ ?_
    obtain ⟨hpos, hdate⟩ := hx
    dsimp only
    rw [if_neg (not_lt.mpr hpos)]
    refine stamping_kernel fun y hy ↦ ?_
    rw [if_neg (not_lt.mpr hy.1), hdate]
    exact ⟨⟨_, rfl, rfl⟩, rfl⟩

theorem stamped_utimes (net : NetErrno → ℤ) (ret path : ℤ) (times : Option (Timeval × Timeval)) :
    Stamped c (utimes net ret (.ok path) times) (c.given times) := by
  refine stamping_kernel fun x hx ↦ ?_
  rw [if_neg (not_lt.mpr hx)]
  refine Program.obeys_bind.mpr ((stamping_utimesTimes times).mono fun r s' hr ↦ ?_)
  obtain ⟨⟨dt, rfl, hdt⟩, rfl⟩ := hr
  refine stamping_change (congrArg some hdt.symm) fun _ ↦ ?_
  exact rfl

def Clock.answer (c : Clock) : (q : KernelAsk) → q.Answer
  | .convertTime sec => (0, c.convert sec)
  | .currentClock => (0, c.now)
  | q => q.quiet

theorem stamping_answers (c : Clock) (s : List Stamps) (q : Ask) (hmay : (stamping c).may s q) :
    ∃ x, (stamping c).can s q x := by
  cases q with
  | grab fd => exact ⟨some 0, Option.some_ne_none _⟩
  | load i => exact ⟨⟨0, .FILE, 0⟩, DescriptorTypes.noConfusion, DescriptorTypes.noConfusion⟩
  | drop i => exact ⟨0, trivial⟩
  | storeUid | pass => exact ⟨(), trivial⟩
  | duplicate => exact ⟨.error none, trivial⟩
  | fault => exact hmay.elim
  | kernel q =>
    refine ⟨c.answer q, ?_⟩
    cases q with
    | path path change =>
      cases change with
      | sceFiosStatSync => exact le_refl (0 : ℤ)
      | _ => trivial
    | use i uid r =>
      cases r with
      | sceFiosFHStatSync => exact le_refl (0 : ℤ)
      | _ => trivial
    | convertTime | currentClock => exact ⟨le_refl (0 : ℤ), rfl⟩
    | _ => trivial

theorem Stamped.unique {p : Call Outcome} {stamps' : Stamps} (h : Stamped c p stamps)
    (h' : Stamped c p stamps') : stamps = stamps' := by
  obtain ⟨_, s', rfl, hs'⟩ := (Program.Obeys.and h h').reaches (stamping_answers c)
  exact List.head_eq_of_cons_eq hs'

theorem stamped_utimes_iff {ret path : ℤ} : Stamped c (utimes net ret (.ok path) times)
    (c.wanted times) ↔ ∀ p ∈ times, c.stamp p.1 = c.stamp p.2 := by
  have hgiven : c.given times = c.wanted times ↔ ∀ p ∈ times, c.stamp p.1 = c.stamp p.2 := by
    cases times with
    | none => simp [Clock.given]
    | some p => simp [Clock.given, Clock.wanted]
  rw [← hgiven]
  have hstamped := stamped_utimes (c := c) net ret path times
  exact ⟨fun h ↦ hstamped.unique h, fun h ↦ h ▸ hstamped⟩

end

/-- The calls on a descriptor store the times they get, and those on a path do if the two times come
to one date. -/
theorem times_agree_iff (net : NetErrno → ℤ) (c : Clock) (fd ret path : ℤ)
    (times : Option (Timeval × Timeval)) :
    Stamped c (utimensat net fd (times.map fun p ↦ (p.1.timespec, p.2.timespec)))
      (c.wanted times) ∧
    Stamped c (futimens net fd (times.map fun p ↦ (p.1.timespec, p.2.timespec)))
      (c.wanted times) ∧
    (Stamped c (utimes net ret (.ok path) times) (c.wanted times) ↔
      ∀ p ∈ times, c.stamp p.1 = c.stamp p.2) ∧
    ∀ buf : Option (ℤ × ℤ), Stamped c (utime net ret (.ok path) buf)
      (c.wanted (buf.map fun b ↦ (⟨b.1, 0⟩, ⟨b.2, 0⟩))) ↔
        ∀ b ∈ buf, c.stamp ⟨b.1, 0⟩ = c.stamp ⟨b.2, 0⟩ := by
  refine ⟨stamped_utimensat net fd times, stamped_utimensat net fd times, stamped_utimes_iff,
    fun buf ↦ stamped_utimes_iff.trans ?_⟩
  cases buf <;> simp

def countingClock : Clock := ⟨fun sec ↦ ⟨sec, 0⟩, SceDateTime.seconds, ⟨0, 0⟩⟩

/-- `utimes` stores the access time as the modification time. -/
theorem utimes_stores_atime : ¬ Stamped countingClock
    (utimes 0 0 (.ok 0) (some (⟨1, 0⟩, ⟨2, 0⟩)))
    (countingClock.wanted (some (⟨1, 0⟩, ⟨2, 0⟩))) := by
  rw [stamped_utimes_iff]
  intro h
  exact absurd (h _ rfl) (by decide)

end SceLibcPosix.Descriptor
