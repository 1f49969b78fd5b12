import SceLibcPosix.Descriptor.Create
import SceLibcPosix.Descriptor.Io
import SceLibcPosix.Descriptor.Release

namespace SceLibcPosix.Descriptor

open Errno VitaError ScatterGather

section Loops

variable {mem : ℕ → UInt8} {iov : List (ℕ × ℕ)} {data : List UInt8} {bytes : ℕ}

theorem totalFrom_eq (h : bytes ≤ SSIZE_MAX) : totalFrom bytes iov =
    if bytes + total iov ≤ SSIZE_MAX then some (bytes + total iov) else none := by
  induction iov generalizing bytes with
  | nil => exact (if_pos h).symm
  | cons v iov ih =>
    rw [totalFrom, total_cons]
    by_cases hv : SSIZE_MAX - bytes < v.2
    · rw [if_pos hv, if_neg (by omega)]
    · rw [if_neg hv, ih (by omega), Nat.add_assoc]

theorem scatter_eq : scatter mem iov data = layOut mem iov data := by
  induction iov generalizing mem data with
  | nil => rfl
  | cons v iov ih =>
    rw [scatter, layOut_cons, storeAll_min]
    by_cases hlen : data.length ≤ v.2
    · rw [if_pos (by omega), List.drop_eq_nil_of_le hlen, layOut_nil]
    · rw [if_neg (by omega), ih, Nat.min_eq_left (by omega)]

theorem gather_eq : gather mem (total iov) iov = contents mem iov := by
  induction iov with
  | nil => rfl
  | cons v iov ih =>
    rw [gather, contents_cons, total_cons, Nat.min_eq_left (by omega), Nat.add_sub_cancel_left]
    by_cases hzero : total iov = 0
    · have hnil : contents mem iov = [] := List.length_eq_zero_iff.mp (length_contents.trans hzero)
      rw [if_pos hzero, hnil]
    · rw [if_neg hzero, ih]

end Loops

def Request.plain : Request → Request
  | .fhReadv fh lens => .fhRead fh lens.sum
  | .fhWritev fh bufs => .fhWrite fh bufs.flatten
  | .fhPreadv fh lens off => .fhPread fh lens.sum off
  | .fhPwritev fh bufs off => .fhPwrite fh bufs.flatten off
  | q => q

def Request.errorType : Request → ErrorType
  | .fhRead _ _ | .fhWrite _ _ | .fhPread _ _ _ | .fhPwrite _ _ _ => .FIOS
  | .netRecv _ _ | .netSend _ _ => .SOCKET
  | _ => .GENERIC

/-- What holds of the switch of a plain call. `same` says which two entries it takes for one. -/
structure Plain.Lawful (p : Plain)
    (same : DescriptorTranslation → DescriptorTranslation → Prop) : Prop where
  entry : ∀ d n, p.entry { d with refCount := n } = p.entry d
  asks : ∀ d, d.type ≠ .DIRECTORY → ∃ type q, p.entry d = some (type, q)
  direct : ∀ {d type q}, p.entry d = some (type, q) → q.plain = q ∧ type = q.errorType
  apart : ∀ f ∈ p.handle, ∀ n d type q, d.type ≠ .FILE → p.entry d = some (type, q) →
    (f n).plain ≠ q
  same_iff : ∀ d d', d.type ≠ .FILE → d.type ≠ .DIRECTORY → (p.entry d' = p.entry d ↔ same d d')

/-- What holds of a plain call and the vectored call that is made of it. -/
structure Pair (v : VectorCall) (p : Plain) (iov : List (ℕ × ℕ)) : Prop where
  plain : v.plain (total iov) = p
  fios : ∀ d, d.type = .FILE → p.entry d = some (.FIOS, (v.fios d.sceUid).plain)
  copyOut : v.copyOut = v.lay
  lay_nil : ∀ mem, v.lay mem [] = mem

/-- When a vectored call meets the plain call: on files, or where the buffers fit into one that can
be allocated and the number of the kernel object is the number of a slot for the same object. -/
def Meets (same : DescriptorTranslation → DescriptorTranslation → Prop) (t : Table) (alloc : Bool)
    (iov : List (ℕ × ℕ)) (d : DescriptorTranslation) : Prop :=
  d.type = .FILE ∨ total iov ≤ SSIZE_MAX ∧ alloc = true ∧
    ∃ s j, openAt t d.sceUid = some (s, j) ∧ same d (t.pool j)

section Generic

variable {σ : Type} {K : Kernel σ} {net : NetErrno → ℤ} {r fd : ℤ} {s : State σ} {sl : Slot}
  {i : Entry} {c p : Plain} {v : VectorCall} {iov : List (ℕ × ℕ)} {alloc : Bool} {t : Table}
  {same : DescriptorTranslation → DescriptorTranslation → Prop}

/-- What a plain call leaves once its bytes have been laid out over the buffers. -/
def landed (lay : (ℕ → UInt8) → List UInt8 → ℕ → UInt8) (res : (ℤ × List UInt8) × State σ) :
    ℤ × State σ :=
  (res.1.1, { res.2 with mem := lay res.2.mem res.1.2 })

theorem Kernel.Vectored.run_plain (hK : K.Vectored) (q : Request) : K.run q.plain = K.run q := by
  cases q with
  | fhReadv fh lens => exact (hK.readv fh lens).symm
  | fhWritev fh bufs => exact (hK.writev fh bufs).symm
  | fhPreadv fh lens off => exact (hK.preadv fh lens off).symm
  | fhPwritev fh bufs off => exact (hK.pwritev fh bufs off).symm
  | _ => rfl

theorem addRef_pool_self (n : ℤ) : (t.addRef i n).pool i =
    { t.pool i with refCount := (t.pool i).refCount + n } := by
  simp [Table.addRef]

theorem InUse.addRef (ht : InUse t) (i : Entry) : InUse (t.addRef i 1) := by
  intro s j hs
  have := ht s j hs
  rw [Table.addRef_refCount]
  split <;> omega

def errnoAfter (net : NetErrno → ℤ) (type : ErrorType) (n : ℕ) (errno : ℤ) : ℤ :=
  if (Transfer.failed n).ret = -1 then errno
  else sceErrnoToErrno net (Transfer.failed n).ret type

theorem finish_moved (type : ErrorType) (data : List UInt8) (s : State σ) :
    finish net type (Transfer.moved data).ret s = ((data.length : ℤ), { s with errno := 0 }) :=
  if_neg (Int.not_lt.mpr (Int.natCast_nonneg data.length))

theorem finish_failed (type : ErrorType) (n : ℕ) (s : State σ) :
    finish net type (Transfer.failed n).ret s =
      (-1, { s with errno := errnoAfter net type n s.errno }) := by
  have hneg : (Transfer.failed n).ret < 0 := Int.negSucc_lt_zero n
  rw [finish, if_pos hneg, errnoAfter]
  by_cases hone : (Transfer.failed n).ret = -1
  · rw [if_neg (not_not.mpr hone), if_pos hone]
  · rw [if_pos hone, if_neg hone]

theorem finish_minus_one (type : ErrorType) (s : State σ) : finish net type (-1) s = (-1, s) := rfl

theorem finish_kernel (type : ErrorType) (ret : ℤ) (s : State σ) :
    (finish net type ret s).2.kernel = s.kernel := by
  unfold finish
  split_ifs <;> rfl

def plainEnd (net : NetErrno → ℤ) (s : State σ) : ErrorType × Transfer × σ →
    (ℤ × List UInt8) × State σ
  | (_, .moved data, k) => ((data.length, data), { s with kernel := k, errno := 0 })
  | (type, .failed n, k) =>
    ((-1, []), { s with kernel := k, errno := errnoAfter net type n s.errno })

theorem plainEnd_kernel (x : ErrorType × Transfer × σ) : (plainEnd net s x).2.kernel = x.2.2 := by
  obtain ⟨type, x, k⟩ := x
  cases x <;> rfl

theorem Plain.Lawful.entry_addRef (hl : p.Lawful same) (j : Entry) (n : ℤ) :
    p.entry ((t.addRef i n).pool j) = p.entry (t.pool j) := by
  by_cases h : j = i
  · subst h
    rw [addRef_pool_self, hl.entry]
  · rw [Table.addRef, Table.setEntry_pool, Function.update_of_ne h]

theorem Plain.Lawful.ask_addRef (hl : p.Lawful same) (j : Entry) (n : ℤ) (k : σ) :
    p.ask K ((t.addRef i n).pool j) k = p.ask K (t.pool j) k := by
  rw [Plain.ask, Plain.ask, hl.entry_addRef]

theorem Plain.Lawful.call_open (hl : p.Lawful same) (ht : InUse s.table)
    (h : openAt s.table fd = some (sl, i)) :
    p.call K net r s fd = plainEnd net s (p.ask K (s.table.pool i) s.kernel) := by
  rw [Plain.call, fdGrab_open h]
  dsimp only
  rw [hl.ask_addRef, fdDrop_grabbed (ht sl i (openAt_eq_some.mp h).2)]
  generalize p.ask K (s.table.pool i) s.kernel = res
  obtain ⟨type, x, k⟩ := res
  cases x with
  | moved data =>
    dsimp only
    rw [finish_moved]
    rfl
  | failed n =>
    dsimp only
    rw [finish_failed]
    rfl

theorem VectorCall.call_file (ht : InUse s.table) (h : openAt s.table fd = some (sl, i))
    (hd : (s.table.pool i).type = .FILE) : v.call K net r alloc s fd iov =
      let (x, k) := K.run (v.fios (s.table.pool i).sceUid) s.kernel
      finish net .FIOS x.ret { s with kernel := k, mem := v.lay s.mem x.data } := by
  rw [VectorCall.call, fdGrab_open h]
  dsimp only
  rw [addRef_pool_self, hd]
  dsimp only
  rw [fdDrop_grabbed (ht sl i (openAt_eq_some.mp h).2)]

theorem VectorCall.call_other (h : openAt s.table fd = some (sl, i))
    (hfile : (s.table.pool i).type ≠ .FILE) (hdir : (s.table.pool i).type ≠ .DIRECTORY) :
    v.call K net r alloc s fd iov =
      let (ret, s') := v.helper K net r alloc { s with table := s.table.addRef i 1 }
        (s.table.pool i).sceUid iov
      finish net .GENERIC ret { s' with table := (fdDrop net s'.table i r).2 } := by
  rw [VectorCall.call, fdGrab_open h]
  dsimp only
  rw [addRef_pool_self]
  dsimp only
  cases htype : (s.table.pool i).type with
  | FILE => exact absurd htype hfile
  | DIRECTORY => exact absurd htype hdir
  | _ => rfl

theorem VectorCall.helper_moved {s' : State σ} {data : List UInt8} (htotal : total iov ≤ SSIZE_MAX)
    (h : (v.plain (total iov)).call K net r s fd = (((data.length : ℤ), data), s')) :
    v.helper K net r true s fd iov =
      ((data.length : ℤ), { s' with mem := v.copyOut s'.mem data }) := by
  rw [VectorCall.helper, totalFrom_eq (Nat.zero_le _), Nat.zero_add, if_pos htotal]
  dsimp only
  rw [h, if_neg (by decide)]
  exact if_neg (Int.not_lt.mpr (Int.natCast_nonneg data.length))

theorem VectorCall.helper_failed {s' : State σ} {data : List UInt8} (htotal : total iov ≤ SSIZE_MAX)
    (h : (v.plain (total iov)).call K net r s fd = ((-1, data), s')) :
    v.helper K net r true s fd iov = (-1, s') := by
  rw [VectorCall.helper, totalFrom_eq (Nat.zero_le _), Nat.zero_add, if_pos htotal]
  dsimp only
  rw [h]
  rfl

theorem Pair.file (hp : Pair v p iov) (hl : p.Lawful same) (hK : K.Vectored) (ht : InUse s.table)
    (h : openAt s.table fd = some (sl, i)) (hd : (s.table.pool i).type = .FILE) :
    v.call K net r alloc s fd iov = landed v.lay (p.call K net r s fd) := by
  have hask : p.ask K (s.table.pool i) s.kernel =
      (.FIOS, K.run (v.fios (s.table.pool i).sceUid) s.kernel) := by
    rw [Plain.ask, hp.fios _ hd]
    dsimp only
    rw [hK.run_plain]
  rw [VectorCall.call_file ht h hd, hl.call_open ht h, hask]
  generalize K.run (v.fios (s.table.pool i).sceUid) s.kernel = res
  obtain ⟨x, k⟩ := res
  cases x with
  | moved data => exact finish_moved _ _ _
  | failed n =>
    dsimp only [landed, plainEnd, Transfer.data]
    rw [hp.lay_nil, finish_failed]

theorem Pair.alias (hp : Pair v p iov) (hl : p.Lawful same) (ht : InUse s.table)
    (h : openAt s.table fd = some (sl, i)) (hfile : (s.table.pool i).type ≠ .FILE)
    (hdir : (s.table.pool i).type ≠ .DIRECTORY) (htotal : total iov ≤ SSIZE_MAX) {sl' : Slot}
    {j : Entry} (hj : openAt s.table (s.table.pool i).sceUid = some (sl', j))
    (hsame : same (s.table.pool i) (s.table.pool j)) :
    v.call K net r true s fd iov = landed v.lay (p.call K net r s fd) := by
  have hask : p.ask K (s.table.pool j) s.kernel = p.ask K (s.table.pool i) s.kernel := by
    rw [Plain.ask, Plain.ask, (hl.same_iff _ _ hfile hdir).mpr hsame]
  have hi := ht sl i (openAt_eq_some.mp h).2
  have hinner : (v.plain (total iov)).call K net r { s with table := s.table.addRef i 1 }
      (s.table.pool i).sceUid = plainEnd net { s with table := s.table.addRef i 1 }
        (p.ask K (s.table.pool i) s.kernel) := by
    rw [hp.plain, hl.call_open (s := { s with table := s.table.addRef i 1 }) (ht.addRef i) hj,
      hl.ask_addRef, hask]
  rw [VectorCall.call_other h hfile hdir, hl.call_open ht h]
  generalize p.ask K (s.table.pool i) s.kernel = res at hinner ⊢
  obtain ⟨type, x, k⟩ := res
  cases x with
  | moved data =>
    rw [VectorCall.helper_moved htotal hinner, hp.copyOut]
    dsimp only
    rw [fdDrop_grabbed hi]
    exact finish_moved _ _ _
  | failed n =>
    rw [VectorCall.helper_failed htotal hinner]
    dsimp only [landed, plainEnd]
    rw [fdDrop_grabbed hi, hp.lay_nil, finish_minus_one]

theorem Pair.meets (hp : Pair v p iov) (hl : p.Lawful same) (hK : K.Vectored) (ht : InUse s.table)
    (h : openAt s.table fd = some (sl, i)) (hdir : (s.table.pool i).type ≠ .DIRECTORY)
    (hm : Meets same s.table alloc iov (s.table.pool i)) :
    v.call K net r alloc s fd iov = landed v.lay (p.call K net r s fd) := by
  by_cases hfile : (s.table.pool i).type = .FILE
  · exact hp.file hl hK ht h hfile
  · obtain ⟨htotal, rfl, sl', j, hj, hsame⟩ := hm.resolve_left hfile
    exact hp.alias hl ht h hfile hdir htotal hj hsame

/-- A kernel that logs what it is asked for and moves nothing. -/
def logging : Kernel (List Request) where
  run q k := (.moved [], q.plain :: k)
  fhTell _ k := (0, k)

theorem logging_vectored : logging.Vectored where
  readv _ _ := rfl
  writev _ _ := rfl
  preadv _ _ _ := rfl
  pwritev _ _ _ := rfl

end Generic

section Logging

variable {net : NetErrno → ℤ} {r fd : ℤ} {s : State (List Request)} {sl : Slot} {i : Entry}
  {p : Plain} {v : VectorCall} {iov : List (ℕ × ℕ)} {alloc : Bool}
  {same : DescriptorTranslation → DescriptorTranslation → Prop}

theorem Plain.Lawful.log_open (hl : p.Lawful same) (ht : InUse s.table)
    (h : openAt s.table fd = some (sl, i)) : (p.call logging net r s fd).2.kernel =
      (p.entry (s.table.pool i)).toList.map Prod.snd ++ s.kernel := by
  rw [hl.call_open ht h, plainEnd_kernel, Plain.ask]
  cases hentry : p.entry (s.table.pool i) with
  | none => rfl
  | some x =>
    obtain ⟨type, q⟩ := x
    exact congrArg (· :: s.kernel) (hl.direct hentry).1

theorem Plain.log_closed (h : openAt s.table fd = none) : (p.call logging net r s fd).2.kernel =
    p.handle.toList.map (fun q ↦ (q fd).plain) ++ s.kernel := by
  rw [Plain.call, fdGrab_closed h]
  cases p.handle with
  | none => rfl
  | some q => rfl

theorem VectorCall.helper_log : (v.helper logging net r alloc s fd iov).2.kernel =
    if total iov ≤ SSIZE_MAX ∧ alloc = true then
      ((v.plain (total iov)).call logging net r s fd).2.kernel
    else s.kernel := by
  rw [VectorCall.helper, totalFrom_eq (Nat.zero_le _), Nat.zero_add]
  by_cases htotal : total iov ≤ SSIZE_MAX
  · rw [if_pos htotal]
    cases alloc with
    | false => exact (if_neg fun h ↦ Bool.false_ne_true h.2).symm
    | true =>
      rw [if_pos ⟨htotal, rfl⟩]
      dsimp only
      rw [if_neg (by decide)]
      split_ifs <;> rfl
  · rw [if_neg htotal, if_neg fun h ↦ htotal h.1]

theorem Pair.meets_of_log (hp : Pair v p iov) (hl : p.Lawful same) (ht : InUse s.table)
    (h : openAt s.table fd = some (sl, i)) (hdir : (s.table.pool i).type ≠ .DIRECTORY)
    (hlog : (v.call logging net r alloc s fd iov).2.kernel =
      (p.call logging net r s fd).2.kernel) : Meets same s.table alloc iov (s.table.pool i) := by
  refine or_iff_not_imp_left.mpr fun hfile ↦ ?_
  obtain ⟨type, q, hq⟩ := hl.asks _ hdir
  rw [VectorCall.call_other h hfile hdir, hl.log_open ht h, hq, finish_kernel] at hlog
  dsimp only at hlog
  rw [VectorCall.helper_log] at hlog
  have hne : s.kernel ≠ q :: s.kernel := (List.cons_ne_self q s.kernel).symm
  by_cases hfits : total iov ≤ SSIZE_MAX ∧ alloc = true
  · rw [if_pos hfits, hp.plain] at hlog
    refine ⟨hfits.1, hfits.2, ?_⟩
    cases hj : openAt s.table (s.table.pool i).sceUid with
    | none =>
      rw [Plain.log_closed (s := { s with table := s.table.addRef i 1 }) hj] at hlog
      cases hhandle : p.handle with
      | none =>
        rw [hhandle] at hlog
        exact absurd hlog hne
      | some f =>
        rw [hhandle] at hlog
        exact absurd (List.cons.inj hlog).1 (hl.apart f hhandle _ _ type q hfile hq)
    | some x =>
      obtain ⟨sl', j⟩ := x
      rw [hl.log_open (s := { s with table := s.table.addRef i 1 }) (ht.addRef i) hj] at hlog
      replace hlog : (p.entry ((s.table.addRef i 1).pool j)).toList.map Prod.snd ++ s.kernel =
        q :: s.kernel := hlog
      rw [hl.entry_addRef] at hlog
      refine ⟨sl', j, rfl, (hl.same_iff _ _ hfile hdir).mp ?_⟩
      cases hq' : p.entry (s.table.pool j) with
      | none =>
        rw [hq'] at hlog
        exact absurd hlog hne
      | some x =>
        obtain ⟨type', q'⟩ := x
        rw [hq'] at hlog
        obtain rfl : q' = q := (List.cons.inj hlog).1
        rw [hq, (hl.direct hq).2, (hl.direct hq').2]
  · rw [if_neg hfits] at hlog
    exact absurd hlog hne

end Logging

def SameObject (d d' : DescriptorTranslation) : Prop := d'.type = d.type ∧ d'.sceUid = d.sceUid

/-- The entries that `pread` and `pwrite` do the same for as for one that is no file. -/
def SamePosition (d d' : DescriptorTranslation) : Prop :=
  d'.type ≠ .FILE ∧ d'.type ≠ .DIRECTORY ∧ d'.sceUid = d.sceUid

section Switches

variable {len : ℕ} {bytes : List UInt8} {off : ℤ} {mem : ℕ → UInt8} {iov : List (ℕ × ℕ)}

structure Direct (q : ℤ → Request) (type : ErrorType) : Prop where
  plain : ∀ n, (q n).plain = q n
  errorType : ∀ n, (q n).errorType = type
  injective : q.Injective

theorem Direct.direct {q : ℤ → Request} {type : ErrorType} (h : Direct q type) (n : ℤ) :
    (q n).plain = q n ∧ type = (q n).errorType := ⟨h.plain n, (h.errorType n).symm⟩

theorem Direct.apart {q q' : ℤ → Request} {type type' : ErrorType} (h : Direct q type)
    (h' : Direct q' type') (hne : type ≠ type') (m n : ℤ) : (q m).plain ≠ q' n := by
  intro heq
  rw [h.plain] at heq
  exact hne ((h.errorType m).symm.trans ((congrArg _ heq).trans (h'.errorType n)))

/-- The switch of `read` and `write`: each type has its own requests. -/
def Plain.Streamed (p : Plain) (tty file socket pipe : ℤ → Request) : Prop :=
  ∀ d, p.entry d = match d.type with
    | .TTY => some (.GENERIC, tty d.sceUid)
    | .FILE => some (.FIOS, file d.sceUid)
    | .SOCKET => some (.SOCKET, socket d.sceUid)
    | .DIRECTORY => none
    | .PIPE => some (.GENERIC, pipe d.sceUid)

/-- That of `pread` and `pwrite`: all but a file and a directory have the same requests. -/
def Plain.Positioned (p : Plain) (file io : ℤ → Request) : Prop :=
  ∀ d, p.entry d = match d.type with
    | .DIRECTORY => none
    | .FILE => some (.FIOS, file d.sceUid)
    | .TTY | .SOCKET | .PIPE => some (.GENERIC, io d.sceUid)

theorem readPlain_streamed (len : ℕ) : (readPlain len).Streamed (.ioRead · len) (.fhRead · len)
    (.netRecv · len) (.receiveMsgPipe · (if 4 * 4096 < len then 4 * 4096 else len)) := fun _ ↦ rfl

theorem writePlain_streamed (bytes : List UInt8) : (writePlain bytes).Streamed (.ioWrite · bytes)
    (.fhWrite · bytes) (.netSend · bytes) (.sendMsgPipe · (bytes.take (4 * 4096))) := fun _ ↦ rfl

theorem preadPlain_positioned (len : ℕ) (off : ℤ) :
    (preadPlain len off).Positioned (.fhPread · len off) (.ioPread · len off) := fun _ ↦ rfl

theorem pwritePlain_positioned (bytes : List UInt8) (off : ℤ) :
    (pwritePlain bytes off).Positioned (.fhPwrite · bytes off) (.ioPwrite · bytes off) :=
  fun _ ↦ rfl

section Requests

variable {p : Plain} {tty file socket pipe io : ℤ → Request} {d : DescriptorTranslation}
  {type : ErrorType} {q : Request}

theorem Plain.Streamed.asked (hp : p.Streamed tty file socket pipe)
    (h : p.entry d = some (type, q)) : d.type = .TTY ∧ type = .GENERIC ∧ q = tty d.sceUid ∨
      d.type = .FILE ∧ type = .FIOS ∧ q = file d.sceUid ∨
      d.type = .SOCKET ∧ type = .SOCKET ∧ q = socket d.sceUid ∨
      d.type = .PIPE ∧ type = .GENERIC ∧ q = pipe d.sceUid := by
  rw [hp] at h
  cases htype : d.type with
  | DIRECTORY =>
    rw [htype] at h
    cases h
  | _ =>
    rw [htype] at h
    cases h
    simp

theorem Plain.Positioned.asked (hp : p.Positioned file io) (h : p.entry d = some (type, q)) :
    d.type = .FILE ∧ type = .FIOS ∧ q = file d.sceUid ∨
      d.type ≠ .FILE ∧ type = .GENERIC ∧ q = io d.sceUid := by
  rw [hp] at h
  cases htype : d.type with
  | DIRECTORY =>
    rw [htype] at h
    cases h
  | _ =>
    rw [htype] at h
    cases h
    simp

theorem Plain.Streamed.lawful (hp : p.Streamed tty file socket pipe)
    (hhandle : p.handle = some file) (htty : Direct tty .GENERIC) (hfile : Direct file .FIOS)
    (hsocket : Direct socket .SOCKET) (hpipe : Direct pipe .GENERIC)
    (hne : ∀ m n, tty m ≠ pipe n) : p.Lawful SameObject where
  entry d _ := by rw [hp, hp]
  asks d hd := by
    rw [hp]
    cases htype : d.type with
    | DIRECTORY => exact absurd htype hd
    | TTY | FILE | SOCKET | PIPE => exact ⟨_, _, rfl⟩
  direct {d type q} h := by
    rcases hp.asked h with ⟨-, rfl, rfl⟩ | ⟨-, rfl, rfl⟩ | ⟨-, rfl, rfl⟩ | ⟨-, rfl, rfl⟩
    · exact htty.direct _
    · exact hfile.direct _
    · exact hsocket.direct _
    · exact hpipe.direct _
  apart f hf n d type q hd h := by
    rw [hhandle] at hf
    obtain rfl := Option.mem_some.mp hf
    rcases hp.asked h with ⟨-, -, rfl⟩ | ⟨htype, -, -⟩ | ⟨-, -, rfl⟩ | ⟨-, -, rfl⟩
    · exact hfile.apart htty (by decide) _ _
    · exact absurd htype hd
    · exact hfile.apart hsocket (by decide) _ _
    · exact hfile.apart hpipe (by decide) _ _
  same_iff d d' hd hd' := by
    have hne' : ∀ m n, pipe m ≠ tty n := fun m n h ↦ hne n m h.symm
    obtain ⟨uid, type, n⟩ := d
    obtain ⟨uid', type', n'⟩ := d'
    rw [hp, hp]
    cases type <;> cases type' <;>
      simp_all [SameObject, htty.injective.eq_iff, hsocket.injective.eq_iff,
        hpipe.injective.eq_iff]

theorem Plain.Positioned.lawful (hp : p.Positioned file io) (hhandle : p.handle = none)
    (hfile : Direct file .FIOS) (hio : Direct io .GENERIC) : p.Lawful SamePosition where
  entry d _ := by rw [hp, hp]
  asks d hd := by
    rw [hp]
    cases htype : d.type with
    | DIRECTORY => exact absurd htype hd
    | TTY | FILE | SOCKET | PIPE => exact ⟨_, _, rfl⟩
  direct {d type q} h := by
    rcases hp.asked h with ⟨-, rfl, rfl⟩ | ⟨-, rfl, rfl⟩
    · exact hfile.direct _
    · exact hio.direct _
  apart f hf := by
    rw [hhandle] at hf
    cases hf
  same_iff d d' hd hd' := by
    obtain ⟨uid, type, n⟩ := d
    obtain ⟨uid', type', n'⟩ := d'
    rw [hp, hp]
    cases type <;> cases type' <;> simp_all [SamePosition, hio.injective.eq_iff]

end Requests

theorem readPlain_lawful : (readPlain len).Lawful SameObject :=
  (readPlain_streamed len).lawful rfl
    ⟨fun _ ↦ rfl, fun _ ↦ rfl, fun _ _ h ↦ (Request.ioRead.inj h).1⟩
    ⟨fun _ ↦ rfl, fun _ ↦ rfl, fun _ _ h ↦ (Request.fhRead.inj h).1⟩
    ⟨fun _ ↦ rfl, fun _ ↦ rfl, fun _ _ h ↦ (Request.netRecv.inj h).1⟩
    ⟨fun _ ↦ rfl, fun _ ↦ rfl, fun _ _ h ↦ (Request.receiveMsgPipe.inj h).1⟩
    fun _ _ h ↦ nomatch h

theorem writePlain_lawful : (writePlain bytes).Lawful SameObject :=
  (writePlain_streamed bytes).lawful rfl
    ⟨fun _ ↦ rfl, fun _ ↦ rfl, fun _ _ h ↦ (Request.ioWrite.inj h).1⟩
    ⟨fun _ ↦ rfl, fun _ ↦ rfl, fun _ _ h ↦ (Request.fhWrite.inj h).1⟩
    ⟨fun _ ↦ rfl, fun _ ↦ rfl, fun _ _ h ↦ (Request.netSend.inj h).1⟩
    ⟨fun _ ↦ rfl, fun _ ↦ rfl, fun _ _ h ↦ (Request.sendMsgPipe.inj h).1⟩
    fun _ _ h ↦ nomatch h

theorem preadPlain_lawful : (preadPlain len off).Lawful SamePosition :=
  (preadPlain_positioned len off).lawful rfl
    ⟨fun _ ↦ rfl, fun _ ↦ rfl, fun _ _ h ↦ (Request.fhPread.inj h).1⟩
    ⟨fun _ ↦ rfl, fun _ ↦ rfl, fun _ _ h ↦ (Request.ioPread.inj h).1⟩

theorem pwritePlain_lawful : (pwritePlain bytes off).Lawful SamePosition :=
  (pwritePlain_positioned bytes off).lawful rfl
    ⟨fun _ ↦ rfl, fun _ ↦ rfl, fun _ _ h ↦ (Request.fhPwrite.inj h).1⟩
    ⟨fun _ ↦ rfl, fun _ ↦ rfl, fun _ _ h ↦ (Request.ioPwrite.inj h).1⟩

theorem contents_flatten : (iov.map fun v ↦ (List.range' v.1 v.2).map mem).flatten =
    contents mem iov := by
  rw [contents, addresses, List.map_flatMap, List.flatMap_def]

theorem readv_pair : Pair (readvCall iov) (readPlain (total iov)) iov where
  plain := rfl
  fios d hd := by
    simp only [readPlain, hd]
    rfl
  copyOut := funext₂ fun _ _ ↦ scatter_eq
  lay_nil _ := layOut_nil

theorem writev_pair : Pair (writevCall mem iov) (writePlain (contents mem iov)) iov where
  plain := congrArg writePlain gather_eq
  fios d hd := by
    simp only [writePlain, hd]
    exact congrArg (fun bytes ↦ some (_, Request.fhWrite _ bytes)) contents_flatten.symm
  copyOut := rfl
  lay_nil _ := rfl

theorem preadv_pair : Pair (preadvCall iov off) (preadPlain (total iov) off) iov where
  plain := rfl
  fios d hd := by
    simp only [preadPlain, hd]
    rfl
  copyOut := funext₂ fun _ _ ↦ scatter_eq
  lay_nil _ := layOut_nil

theorem pwritev_pair : Pair (pwritevCall mem iov off) (pwritePlain (contents mem iov) off) iov where
  plain := congrArg (pwritePlain · off) gather_eq
  fios d hd := by
    simp only [pwritePlain, hd]
    exact congrArg (fun bytes ↦ some (_, Request.fhPwrite _ bytes off)) contents_flatten.symm
  copyOut := rfl
  lay_nil _ := rfl

end Switches

/-- Two calls do the same from a table and a memory on, whatever the kernel does. -/
def Agree (t : Table) (mem : ℕ → UInt8) (f g : ∀ σ : Type, Kernel σ → State σ → ℤ × State σ) :
    Prop :=
  ∀ (σ : Type) (K : Kernel σ), K.Vectored →
    ∀ errno k, f σ K ⟨t, errno, k, mem⟩ = g σ K ⟨t, errno, k, mem⟩

section Agreement

variable {net : NetErrno → ℤ} {r fd : ℤ} {t : Table} {sl : Slot} {i : Entry} {alloc : Bool}
  {p : Plain} {v : VectorCall} {iov : List (ℕ × ℕ)} {mem : ℕ → UInt8}
  {same : DescriptorTranslation → DescriptorTranslation → Prop}

theorem Pair.agree_iff (hp : Pair v p iov) (hl : p.Lawful same) (ht : InUse t)
    (h : openAt t fd = some (sl, i)) (hdir : (t.pool i).type ≠ .DIRECTORY)
    {f g : ∀ σ : Type, Kernel σ → State σ → ℤ × State σ}
    (hf : ∀ σ K errno k, f σ K ⟨t, errno, k, mem⟩ =
      v.call K net r alloc ⟨t, errno, k, mem⟩ fd iov)
    (hg : ∀ σ K errno k, g σ K ⟨t, errno, k, mem⟩ =
      landed v.lay (p.call K net r ⟨t, errno, k, mem⟩ fd)) :
    Agree t mem f g ↔ Meets same t alloc iov (t.pool i) := by
  constructor
  · intro hagree
    have hlog := hagree _ logging logging_vectored 0 []
    rw [hf, hg] at hlog
    exact hp.meets_of_log (s := ⟨t, 0, [], mem⟩) hl ht h hdir (congrArg (·.2.kernel) hlog)
  · intro hm σ K hK errno k
    rw [hf, hg]
    exact hp.meets (s := ⟨t, errno, k, mem⟩) hl hK ht h hdir hm

/-- Each vectored call does what its plain call does exactly where it meets the condition. -/
theorem vectored_equals_plain (net : NetErrno → ℤ) (r : ℤ) (ht : InUse t)
    (h : openAt t fd = some (sl, i)) (hdir : (t.pool i).type ≠ .DIRECTORY) (alloc : Bool)
    (mem : ℕ → UInt8) (iov : List (ℕ × ℕ)) (off : ℤ) :
    (Agree t mem (fun _ K s ↦ readv K net r alloc s fd iov)
        (fun _ K s ↦ landed (layOut · iov) (read K net r s fd (total iov))) ↔
      Meets SameObject t alloc iov (t.pool i)) ∧
    (Agree t mem (fun _ K s ↦ writev K net r alloc s fd iov)
        (fun _ K s ↦ landed (fun mem _ ↦ mem) (write K net r s fd (contents mem iov))) ↔
      Meets SameObject t alloc iov (t.pool i)) ∧
    (Agree t mem (fun _ K s ↦ preadv K net r alloc s fd iov off)
        (fun _ K s ↦ landed (layOut · iov) (pread K net r s fd (total iov) off)) ↔
      Meets SamePosition t alloc iov (t.pool i)) ∧
    (Agree t mem (fun _ K s ↦ pwritev K net r alloc s fd iov off)
        (fun _ K s ↦ landed (fun mem _ ↦ mem) (pwrite K net r s fd (contents mem iov) off)) ↔
      Meets SamePosition t alloc iov (t.pool i)) :=
  ⟨readv_pair.agree_iff readPlain_lawful ht h hdir (fun _ _ _ _ ↦ rfl) fun _ _ _ _ ↦ rfl,
    writev_pair.agree_iff writePlain_lawful ht h hdir (fun _ _ _ _ ↦ rfl) fun _ _ _ _ ↦ rfl,
    preadv_pair.agree_iff preadPlain_lawful ht h hdir (fun _ _ _ _ ↦ rfl) fun _ _ _ _ ↦ rfl,
    pwritev_pair.agree_iff pwritePlain_lawful ht h hdir (fun _ _ _ _ ↦ rfl) fun _ _ _ _ ↦ rfl⟩

end Agreement

theorem openFile_inUse : InUse openFile.table := by
  have hc := openFile_reachable.counts fun h ↦ ⟨fun r hmem _ ↦ h.1 r hmem, h.2⟩
  exact hc.inUse

theorem vectored_equals_plain_openFile :
    Agree openFile.table (fun _ ↦ 0) (fun _ K s ↦ readv K 0 0 true s 3 [(0, 2), (8, 2)])
      fun _ K s ↦ landed (layOut · [(0, 2), (8, 2)]) (read K 0 0 s 3 4) := by
  have hopen : openAt openFile.table 3 = some (3, 3) := openAt_eq_some.mpr ⟨rfl, openFile_slot⟩
  refine (vectored_equals_plain 0 0 openFile_inUse hopen ?_ true _ _ 0).1.mpr (.inl ?_)
  · rw [openFile_entry]
    decide
  · rw [openFile_entry]

def openSocket : Table :=
  (Op.run 0 (Op.run 0 ⟨initFd 0x40010001 0x40010002 0x40010003, fun _ ↦ 0⟩ .acquire)
    (.fill 3 1 .SOCKET)).table

/-- The number of the socket is taken for a descriptor: `readv` and `writev` on it use the standard
output. -/
theorem vectored_crosses_descriptors :
    ¬ Agree openSocket (fun _ ↦ 0) (fun _ K s ↦ readv K 0 0 true s 3 [(0, 4)])
      (fun _ K s ↦ landed (layOut · [(0, 4)]) (read K 0 0 s 3 4)) ∧
    ¬ Agree openSocket (fun _ ↦ 0) (fun _ K s ↦ writev K 0 0 true s 3 [(0, 4)])
      (fun _ K s ↦ landed (fun mem _ ↦ mem) (write K 0 0 s 3 [0, 0, 0, 0])) := by
  constructor
  · intro h
    have hlog := congrArg (·.2.kernel) (h _ logging logging_vectored 0 [])
    have hvec : (readv logging 0 0 true ⟨openSocket, 0, [], fun _ ↦ 0⟩ 3 [(0, 4)]).2.kernel =
        [.ioRead 0x40010002 4] := by decide +kernel
    have hplain : (read logging 0 0 ⟨openSocket, 0, [], fun _ ↦ 0⟩ 3 4).2.kernel =
        [.netRecv 1 4] := by decide +kernel
    cases hvec.symm.trans (hlog.trans hplain)
  · intro h
    have hlog := congrArg (·.2.kernel) (h _ logging logging_vectored 0 [])
    have hvec : (writev logging 0 0 true ⟨openSocket, 0, [], fun _ ↦ 0⟩ 3 [(0, 4)]).2.kernel =
        [.ioWrite 0x40010002 [0, 0, 0, 0]] := by decide +kernel
    have hplain : (write logging 0 0 ⟨openSocket, 0, [], fun _ ↦ 0⟩ 3 [0, 0, 0, 0]).2.kernel =
        [.netSend 1 [0, 0, 0, 0]] := by decide +kernel
    cases hvec.symm.trans (hlog.trans hplain)

end SceLibcPosix.Descriptor
