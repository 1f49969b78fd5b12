import SceLibcPosix.Descriptor.Stays
import SceLibcPosix.Dirent.Reports

namespace SceLibcPosix.Dirents

open Errno VitaError Programs Descriptor Heaps References

def fdopendir (net : NetErrno → ℤ) (t : Table) (fd : ℤ) (h : Heap) (ok : Bool) (r : ℤ) :
    Option (Pointer × Dir) × ℤ × Table × Heap :=
  match fdGrab t fd with
  | (none, t) => (none, EBADF, t, h)
  | (some fdmap, t) =>
    let type := (t.pool fdmap).type
    let t := (fdDrop net t fdmap r).2
    if type ≠ .DIRECTORY then (none, ENOTDIR, t, h)
    else
      let (ret, e, h) := opendirCommon h ok fd
      (ret, e, t, h)

/-- The entry that a descriptor stands for, and its type. -/
def entryAt (t : Table) (fd : ℤ) : Option (Entry × DescriptorTypes) :=
  (openAt t fd).map fun x ↦ (x.2, (t.pool x.2).type)

/-- A stream that is open, with what its descriptor has stood for then. It has its descriptor for
its own as long as no other stream is opened for it and no other call is to close it. -/
structure Stream where
  ptr : Pointer
  dir : Dir
  entry : Option (Entry × DescriptorTypes)
  own : Bool
deriving DecidableEq, Repr

def Stream.spoil (fd : Option ℤ) (d : Stream) : Stream :=
  if fd = some d.dir.fd then { d with own := false } else d

structure Streams where
  table : Table
  heap : Heap := {}
  dirs : List Stream := []

def Streams.add (s : Streams) : Option (Pointer × Dir) × ℤ × Table × Heap → Streams
  | (none, _, t, h) => ⟨t, h, s.dirs⟩
  | (some (p, dir), _, t, h) =>
    ⟨t, h, ⟨p, dir, entryAt t dir.fd, s.dirs.all fun d ↦ d.dir.fd ≠ dir.fd⟩ ::
      s.dirs.map (Stream.spoil (some dir.fd))⟩

/-- The runs of the calls on directory streams, among all others that take or make descriptors: a
stream is closed once, and the position in a stream moves as it will. -/
inductive StreamRun (net : NetErrno → ℤ) (stdin stdout stderr : ℤ) : Streams → Prop
  | start : StreamRun net stdin stdout stderr { table := initFd stdin stdout stderr }
  | opendir {s : Streams} (k : Answers) (fullPath : Except ℤ String) (ok : Bool) (r : ℤ)
      (h : StreamRun net stdin stdout stderr s) :
      StreamRun net stdin stdout stderr (s.add (opendir net s.table k fullPath s.heap ok r))
  | fdopendir {s : Streams} (fd : ℤ) (ok : Bool) (r : ℤ)
      (h : StreamRun net stdin stdout stderr s) :
      StreamRun net stdin stdout stderr (s.add (fdopendir net s.table fd s.heap ok r))
  | closedir {s : Streams} (before after : List Stream) (d : Stream) (r : ℤ)
      (h : StreamRun net stdin stdout stderr s) (hdirs : s.dirs = before ++ d :: after) :
      StreamRun net stdin stdout stderr
        { table := (closedir net s.table s.heap (some (d.ptr, d.dir)) r).2.1
          heap := (closedir net s.table s.heap (some (d.ptr, d.dir)) r).2.2
          dirs := if d.dir.fd = 0 then s.dirs else before ++ after }
  | read {s : Streams} (before after : List Stream) (d : Stream) (dir : Dir)
      (h : StreamRun net stdin stdout stderr s) (hdirs : s.dirs = before ++ d :: after)
      (hfd : dir.fd = d.dir.fd) :
      StreamRun net stdin stdout stderr { s with dirs := before ++ { d with dir := dir } :: after }
  | call {s : Streams} (c : SessionCall) {x x' : Session} (h : StreamRun net stdin stdout stderr s)
      (hx : x.table = s.table) (hrun : c.Runs net x x') :
      StreamRun net stdin stdout stderr
        { s with table := x'.table, dirs := s.dirs.map (Stream.spoil c.closes) }

/-- Each stream has a block of its own, and no other block is allocated; a stream that has its
descriptor for its own shares it with no other one, and it stands for what it has stood for when the
stream was opened. -/
structure Streams.Held (s : Streams) : Prop where
  covers : Covers s.table fun _ ↦ 0
  sound : s.heap.Sound
  live : ∀ p, s.heap.Live p ↔ p ∈ s.dirs.map Stream.ptr
  nodup : (s.dirs.map Stream.ptr).Nodup
  apart : ∀ d ∈ s.dirs, d.own = true → ∀ d' ∈ s.dirs, d'.dir.fd = d.dir.fd → d' = d
  stands : ∀ d ∈ s.dirs, d.own = true → d.entry ≠ none ∧ entryAt s.table d.dir.fd = d.entry

section

variable {net : NetErrno → ℤ} {t t' : Table} {k : Answers} {fd r : ℤ} {h : Heap} {p : Pointer}
  {dir : Dir} {named : Slot → Prop} {sl : Slot} {i : Entry} {s : Streams} {d : Stream}
  {o : Option (Entry × DescriptorTypes)} {x : Option ℤ} {dirs : List Stream}

@[simp] theorem Stream.spoil_ptr : (d.spoil x).ptr = d.ptr := by
  unfold Stream.spoil
  split <;> rfl

@[simp] theorem Stream.spoil_dir : (d.spoil x).dir = d.dir := by
  unfold Stream.spoil
  split <;> rfl

theorem Stream.spoil_of_ne (hne : x ≠ some d.dir.fd) : d.spoil x = d := if_neg hne

theorem Stream.own_spoil (hown : (d.spoil x).own = true) : x ≠ some d.dir.fd := by
  rintro rfl
  rw [Stream.spoil, if_pos rfl] at hown
  exact Bool.false_ne_true hown

theorem map_spoil_ptr (dirs : List Stream) (x : Option ℤ) :
    (dirs.map (Stream.spoil x)).map Stream.ptr = dirs.map Stream.ptr := by
  simp [Function.comp_def]

theorem mem_spoil_own (hd : d ∈ dirs.map (Stream.spoil x)) (hown : d.own = true) :
    d ∈ dirs ∧ x ≠ some d.dir.fd := by
  obtain ⟨d', hd', rfl⟩ := List.mem_map.mp hd
  have hne := Stream.own_spoil hown
  rw [Stream.spoil_of_ne hne] at hown ⊢
  exact ⟨hd', hne⟩

theorem entryAt_some (hentry : entryAt t fd = o) (ho : o ≠ none) :
    ∃ sl i, fd = sl.val ∧ t.fdmap sl = some i ∧ o = some (i, (t.pool i).type) := by
  subst hentry
  obtain ⟨⟨sl, i⟩, hopen⟩ := Option.ne_none_iff_exists'.mp fun hnone ↦
    ho (congrArg (Option.map _) hnone)
  obtain ⟨hfd, hsl⟩ := openAt_eq_some.mp hopen
  exact ⟨sl, i, hfd, hsl, congrArg (Option.map _) hopen⟩

theorem entryAt_slot (hsl : t.fdmap sl = some i) :
    entryAt t sl.val = some (i, (t.pool i).type) :=
  congrArg (Option.map _) (openAt_eq_some.mpr ⟨rfl, hsl⟩)

theorem entryAt_keeps (hk : Keeps named t t') (hentry : entryAt t fd = o) (ho : o ≠ none)
    (hfd : ∀ sl : Slot, fd = sl.val → ¬ named sl) : entryAt t' fd = o := by
  obtain ⟨sl, i, rfl, hsl, rfl⟩ := entryAt_some hentry ho
  obtain ⟨hslot, htype⟩ := hk sl i (hfd sl rfl) hsl
  rw [entryAt_slot hslot, htype]

/-- A call that opens a stream has made one in a new block, for a descriptor that is open, or the
streams there are have lost nothing. -/
inductive StreamOutcome (t : Table) (h : Heap) : Option (Pointer × Dir) × ℤ × Table × Heap → Prop
  | failed (e : ℤ) (t' : Table) (hstays : Stays (fun _ ↦ False) t t') :
    StreamOutcome t h (none, e, t', h)
  | opened (e fd : ℤ) (t' : Table) (hstays : Stays (fun _ ↦ False) t t')
    (hentry : entryAt t' fd ≠ none) :
    StreamOutcome t h (some (.block h.next, newDir fd), e, t', { h with next := h.next + 1 })

theorem opendir_refused {fullPath : Except ℤ String} {fd : Slot}
    (heq : open' net t k fullPath (O_RDONLY ||| O_DIRECTORY) = (.ok fd, t')) (h : Heap) (r : ℤ) :
    ∃ e, opendir net t k fullPath h false r =
      (none, e, (releaseDescriptor net t' fd.val r).2, h) := by
  simp only [opendir, heq, opendirCommon, Heap.malloc, close, Bool.false_eq_true, if_false]
  exact ⟨_, rfl⟩

theorem opendir_outcome (net : NetErrno → ℤ) (hc : Covers t fun _ ↦ 0) (k : Answers)
    (fullPath : Except ℤ String) (h : Heap) (ok : Bool) (r : ℤ) :
    StreamOutcome t h (opendir net t k fullPath h ok r) := by
  have hout := open_installs net t k fullPath (O_RDONLY ||| O_DIRECTORY)
  have hstays (named : Slot → Prop) : Stays named t _ := hout.stays hc
  generalize hopen : open' net t k fullPath (O_RDONLY ||| O_DIRECTORY) = res at hout hstays
  cases hout with
  | failed e t' hfdmap hpool =>
    rw [opendir, hopen]
    exact .failed e t' (hstays _)
  | installed sl i t₁ e hfdmap hpool hsl hi he =>
    cases ok with
    | false =>
      -- The descriptor that is closed again is none of those that were open.
      obtain ⟨e', hcall⟩ := opendir_refused hopen h r
      rw [hcall]
      have hopened : Stays (fun sl' ↦ (sl.val : ℤ) = sl'.val) t
          ((t₁.setSlot sl (some i)).setEntry i e) := hstays _
      have hclosed := stays_release hopened.covers net sl.val r
      have hboth := (hopened.trans hclosed).keeps
      refine .failed e' _ ⟨hclosed.covers, fun sl' j _ hs ↦ ?_⟩
      have hne : ¬ (sl.val : ℤ) = sl'.val := by
        intro heq
        obtain rfl : sl = sl' := Fin.ext (by omega)
        cases hsl.symm.trans hs
      exact hboth sl' j hne hs
    | true =>
      have hslot : ((t₁.setSlot sl (some i)).setEntry i e).fdmap sl = some i :=
        Function.update_self _ _ _
      rw [opendir, hopen]
      refine .opened 0 sl.val _ (hstays _) ?_
      rw [entryAt_slot hslot]
      exact Option.some_ne_none _

theorem fdopendir_outcome (net : NetErrno → ℤ) (hc : Covers t fun _ ↦ 0) (fd : ℤ) (h : Heap)
    (ok : Bool) (r : ℤ) : StreamOutcome t h (fdopendir net t fd h ok r) := by
  have hstays : Stays (fun _ ↦ False) t t := stays_of_eq hc rfl rfl
  cases hopen : openAt t fd with
  | none =>
    rw [fdopendir, fdGrab_closed hopen]
    exact .failed _ t hstays
  | some x =>
    obtain ⟨sl, i⟩ := x
    obtain ⟨rfl, hsl⟩ := openAt_eq_some.mp hopen
    have hpos := hc.slot_pos hsl
    rw [fdopendir, fdGrab_open hopen]
    dsimp only
    rw [fdDrop_grabbed (by omega)]
    split
    · exact .failed _ t hstays
    · cases ok with
      | false => exact .failed _ t hstays
      | true =>
        refine .opened 0 _ t hstays ?_
        rw [entryAt_slot hsl]
        exact Option.some_ne_none _

theorem Streams.Held.keep (hs : s.Held) (x : Option ℤ)
    (hstays : Stays (fun sl ↦ x = some (sl.val : ℤ)) s.table t') :
    Streams.Held ⟨t', s.heap, s.dirs.map (Stream.spoil x)⟩ := by
  have hptr := map_spoil_ptr s.dirs x
  refine ⟨hstays.covers, hs.sound, hptr ▸ hs.live, hptr ▸ hs.nodup, fun d hd hown d' hd' hfd ↦ ?_,
    fun d hd hown ↦ ?_⟩
  · obtain ⟨hmem, hne⟩ := mem_spoil_own hd hown
    obtain ⟨d'', hd'', rfl⟩ := List.mem_map.mp hd'
    rw [Stream.spoil_dir] at hfd
    rw [Stream.spoil_of_ne (hfd ▸ hne)]
    exact hs.apart d hmem hown d'' hd'' hfd
  · obtain ⟨hmem, hne⟩ := mem_spoil_own hd hown
    obtain ⟨ho, hentry⟩ := hs.stands d hmem hown
    exact ⟨ho, entryAt_keeps hstays.keeps hentry ho fun sl hsl hnamed ↦ hne (hsl ▸ hnamed)⟩

theorem Streams.Held.add (hs : s.Held) {res : Option (Pointer × Dir) × ℤ × Table × Heap}
    (hres : StreamOutcome s.table s.heap res) : (s.add res).Held := by
  cases hres with
  | failed e t' hstays =>
    have hkept := hs.keep none (hstays.mono fun _ ↦ False.elim)
    have hspoil : Stream.spoil none = id := funext fun d ↦ Stream.spoil_of_ne nofun
    rw [hspoil, List.map_id] at hkept
    exact hkept
  | opened e fd t' hstays hentry =>
    have hkept := hs.keep (some fd) (hstays.mono fun _ ↦ False.elim)
    have hnew : Pointer.block s.heap.next ∉ s.dirs.map Stream.ptr := fun hmem ↦
      Heap.not_allocated_next ((hs.live _).mpr hmem).1
    have hptr := map_spoil_ptr s.dirs (some fd)
    have hother : ∀ d ∈ s.dirs.map (Stream.spoil (some fd)), d.own = true → d.dir.fd ≠ fd :=
      fun d hd hown heq ↦ (mem_spoil_own hd hown).2 (congrArg some heq.symm)
    have hsole : (s.dirs.all fun d ↦ d.dir.fd ≠ fd) = true →
        ∀ d ∈ s.dirs.map (Stream.spoil (some fd)), d.dir.fd ≠ fd := by
      intro hall d hd
      obtain ⟨d', hd', rfl⟩ := List.mem_map.mp hd
      rw [Stream.spoil_dir]
      exact of_decide_eq_true (List.all_eq_true.mp hall d' hd')
    refine ⟨hkept.covers, hs.sound.succ, fun p ↦ ?_, ?_, ?_, ?_⟩
    · have hlive := hs.sound.live_succ (p := p)
      rw [hs.live, ← hptr] at hlive
      exact hlive.trans (or_comm.trans List.mem_cons.symm)
    · exact List.nodup_cons.mpr ⟨hptr ▸ hnew, hkept.nodup⟩
    · intro d hd hown d' hd' hfd
      rcases List.mem_cons.mp hd with rfl | hd
      · rcases List.mem_cons.mp hd' with rfl | hd'
        · rfl
        · exact absurd hfd (hsole hown d' hd')
      · rcases List.mem_cons.mp hd' with rfl | hd'
        · exact absurd hfd.symm (hother d hd hown)
        · exact hkept.apart d hd hown d' hd' hfd
    · intro d hd hown
      rcases List.mem_cons.mp hd with rfl | hd
      · exact ⟨hentry, rfl⟩
      · exact hkept.stands d hd hown

theorem closedir_zero (net : NetErrno → ℤ) (t : Table) (h : Heap) (p : Pointer) (r : ℤ)
    (hfd : dir.fd = 0) : (closedir net t h (some (p, dir)) r).2 = (t, h) := by
  rw [closedir, if_pos hfd]

theorem closedir_eq (net : NetErrno → ℤ) (t : Table) (h : Heap) (p : Pointer) (r : ℤ)
    (hfd : dir.fd ≠ 0) : (closedir net t h (some (p, dir)) r).2 =
      ((releaseDescriptor net t dir.fd r).2, h.free (some p)) := by
  rw [closedir, if_neg hfd]
  rfl

/-- One of the streams, and the others. -/
theorem Streams.Held.split {before after : List Stream} (hs : s.Held)
    (hdirs : s.dirs = before ++ d :: after) : d ∈ s.dirs ∧
      d.ptr ∉ (before ++ after).map Stream.ptr ∧ ((before ++ after).map Stream.ptr).Nodup ∧
        ∀ d' ∈ before ++ after, d' ∈ s.dirs ∧ d' ≠ d := by
  have hperm : s.dirs.Perm (d :: (before ++ after)) := hdirs ▸ List.perm_middle
  have hnodup := (hperm.map Stream.ptr).nodup_iff.mp hs.nodup
  rw [List.map_cons, List.nodup_cons] at hnodup
  refine ⟨hperm.mem_iff.mpr List.mem_cons_self, hnodup.1, hnodup.2, fun d' hd' ↦
    ⟨hperm.mem_iff.mpr (List.mem_cons_of_mem _ hd'), ?_⟩⟩
  rintro rfl
  exact hnodup.1 (List.mem_map_of_mem hd')

theorem Streams.Held.close {before after : List Stream} (hs : s.Held)
    (hdirs : s.dirs = before ++ d :: after) (net : NetErrno → ℤ) (r : ℤ) :
    Streams.Held ⟨(releaseDescriptor net s.table d.dir.fd r).2, s.heap.free (some d.ptr),
      before ++ after⟩ := by
  have hstays := stays_release hs.covers net d.dir.fd r
  obtain ⟨hd, hptr, hnodup, hrest⟩ := hs.split hdirs
  have hmem : ∀ p, p ∈ s.dirs.map Stream.ptr ↔
      p = d.ptr ∨ p ∈ (before ++ after).map Stream.ptr := by
    simp [hdirs, or_left_comm]
  refine ⟨hstays.covers, hs.sound.free ((hs.live _).mpr (List.mem_map_of_mem hd)), fun p ↦ ?_,
    hnodup, fun d₁ hd₁ hown d₂ hd₂ ↦ hs.apart d₁ (hrest d₁ hd₁).1 hown d₂ (hrest d₂ hd₂).1,
    fun d' hd' hown ↦ ?_⟩
  · rw [Heap.live_free, hs.live, hmem, or_and_right, and_not_self_iff, false_or]
    exact and_iff_left_of_imp fun hp heq ↦ hptr (heq ▸ hp)
  · obtain ⟨hd', hne⟩ := hrest d' hd'
    obtain ⟨ho, hentry⟩ := hs.stands d' hd' hown
    refine ⟨ho, entryAt_keeps hstays.keeps hentry ho fun sl hsl heq ↦ ?_⟩
    exact hne (hs.apart d' hd' hown d hd (heq.trans hsl.symm)).symm

theorem Streams.Held.read {before after : List Stream} (hs : s.Held)
    (hdirs : s.dirs = before ++ d :: after) (hfd : dir.fd = d.dir.fd) :
    ({ s with dirs := before ++ { d with dir := dir } :: after } : Streams).Held := by
  obtain ⟨hd, -, -, hrest⟩ := hs.split hdirs
  have hmem : ∀ d' ∈ before ++ { d with dir := dir } :: after,
      d' = { d with dir := dir } ∨ d' ∈ before ++ after := fun d' hd' ↦
    List.mem_cons.mp (List.perm_middle.mem_iff.mp hd')
  have hptr : (before ++ { d with dir := dir } :: after).map Stream.ptr =
      s.dirs.map Stream.ptr := by
    rw [hdirs, List.map_append, List.map_append, List.map_cons, List.map_cons]
  refine ⟨hs.covers, hs.sound, hptr ▸ hs.live, hptr ▸ hs.nodup, fun d₁ hd₁ hown d₂ hd₂ heq ↦ ?_,
    fun d' hd' hown ↦ ?_⟩
  · rcases hmem d₁ hd₁ with rfl | hd₁
    · rcases hmem d₂ hd₂ with rfl | hd₂
      · rfl
      · obtain ⟨hd₂, hne⟩ := hrest d₂ hd₂
        exact absurd (hs.apart d hd hown d₂ hd₂ (heq.trans hfd)) hne
    · obtain ⟨hd₁, hne⟩ := hrest d₁ hd₁
      rcases hmem d₂ hd₂ with rfl | hd₂
      · exact absurd (hs.apart d₁ hd₁ hown d hd (hfd.symm.trans heq)).symm hne
      · exact hs.apart d₁ hd₁ hown d₂ (hrest d₂ hd₂).1 heq
  · rcases hmem d' hd' with rfl | hd'
    · dsimp only
      rw [hfd]
      exact hs.stands d hd hown
    · exact hs.stands d' (hrest d' hd').1 hown

theorem StreamRun.held {stdin stdout stderr : ℤ} (h : StreamRun net stdin stdout stderr s) :
    s.Held := by
  induction h with
  | start =>
    refine ⟨covers_initFd _ _ _, Heap.sound_empty, fun p ↦ ?_, List.nodup_nil, ?_, ?_⟩
    · simp [Heap.Live, Heap.Allocated]
    · exact fun d hd ↦ absurd hd List.not_mem_nil
    · exact fun d hd ↦ absurd hd List.not_mem_nil
  | @opendir s k fullPath ok r _ ih =>
    exact ih.add (opendir_outcome net ih.covers k fullPath s.heap ok r)
  | @fdopendir s fd ok r _ ih => exact ih.add (fdopendir_outcome net ih.covers fd s.heap ok r)
  | @closedir s before after d r _ hdirs ih =>
    by_cases hfd : d.dir.fd = 0
    · rw [closedir_zero net s.table s.heap d.ptr r hfd, if_pos hfd]
      exact ih
    · rw [closedir_eq net s.table s.heap d.ptr r hfd, if_neg hfd]
      exact ih.close hdirs net r
  | read before after d dir _ hdirs hfd ih => exact ih.read hdirs hfd
  | @call s c x x' _ hx hrun ih =>
    have hc : Covers x.table fun _ ↦ 0 := hx ▸ ih.covers
    have hstays := SessionCall.stays hc hrun
    rw [hx] at hstays
    exact ih.keep c.closes hstays

end

end SceLibcPosix.Dirents
