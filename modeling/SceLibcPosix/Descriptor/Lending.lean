import SceLibcPosix.Descriptor.Handles

namespace SceLibcPosix.Descriptor

open Errno VitaError Programs

/-- The handles that a question to the kernel names, with the entries they have been read from. -/
def KernelAsk.handles : KernelAsk → List (Entry × ℤ)
  | .use (some i) handle _ => [(i, handle)]
  | .transfer (some i) q => [(i, q.handle)]
  | .dhRead i dh => [(i, dh)]
  | .getsockopt i id _ _ => [(i, id)]
  | _ => []

/-- What a call has grabbed and not dropped yet, and which handles it has read there. -/
structure Loans where
  held : Multiset Entry
  seen : Entry → ℤ → Prop

/-- A call reads and drops only what it has grabbed, and names only handles that it has read from
entries that it has not dropped since. It stores none. -/
def lending : Rules Ask Ask.Answer Loans where
  may l
    | .drop i | .load i => i ∈ l.held
    | .storeUid _ _ => False
    | .kernel q => ∀ p ∈ q.handles, l.seen p.1 p.2
    | _ => True
  can _ _ _ := True
  next l
    | .grab _, some i => { l with held := i ::ₘ l.held }
    | .load i, (d : DescriptorTranslation) =>
      { l with seen := fun j h ↦ l.seen j h ∨ j = i ∧ h = d.sceUid }
    | .drop i, _ => ⟨l.held.erase i, fun j h ↦ l.seen j h ∧ j ∈ l.held.erase i⟩
    | _, _ => l

structure Loans.Has (l : Loans) (es : List (Entry × Option ℤ)) : Prop where
  held : (es.map Prod.fst : Multiset Entry) ≤ l.held
  seen : ∀ i h, (i, some h) ∈ es → l.seen i h

/-- A part of a call that keeps to the loans and leaves what `left` says. -/
def Lends {α : Type} (held : List (Entry × Option ℤ)) (left : α → List (Entry × Option ℤ))
    (p : Call α) : Prop :=
  ∀ (es : List (Entry × Option ℤ)) (l : Loans), l.Has (held ++ es) →
    p.Obeys lending l fun a l' ↦ l'.Has (left a ++ es)

abbrev Lent {α : Type} (held : List (Entry × Option ℤ)) (p : Call α) : Prop :=
  Lends held (fun _ ↦ held) p

section

variable {α β : Type} {p q : Call α} {f : α → Call β} {i : Entry} {d : DescriptorTranslation}
  {held : List (Entry × Option ℤ)} {left : α → List (Entry × Option ℤ)}

theorem lent_pure (a : α) : Lent held (pure a : Call α) := fun _ _ h ↦ h

theorem lent_fault : Lent held (fault : Call α) := fun _ _ _ ↦ ⟨trivial, fun x ↦ x.elim⟩

theorem lent_kernel {q : KernelAsk} (hq : ∀ p ∈ q.handles, (p.1, some p.2) ∈ held) :
    Lent held (kernel q) :=
  fun _ _ h ↦ ⟨fun p hp ↦ h.seen _ _ (List.mem_append_left _ (hq p hp)), fun _ _ ↦ h⟩

theorem Lends.seq {left' : β → List (Entry × Option ℤ)} (hp : Lends held left p)
    (hf : ∀ a, Lends (left a) left' (f a)) : Lends held left' (p >>= f) :=
  fun es l h ↦ Program.obeys_bind.mpr ((hp es l h).mono fun a l' h' ↦ hf a es l' h')

theorem Lends.bind {left' : β → List (Entry × Option ℤ)} (hp : Lent held p)
    (hf : ∀ a, Lends held left' (f a)) : Lends held left' (p >>= f) := hp.seq hf

theorem Loans.Has.perm {l : Loans} {es es' : List (Entry × Option ℤ)} (h : l.Has es)
    (hperm : es.Perm es') : l.Has es' where
  held := by
    rw [← Multiset.coe_eq_coe.mpr (hperm.map Prod.fst)]
    exact h.held
  seen i x hx := h.seen i x (hperm.mem_iff.mpr hx)

theorem Lends.ite {c : Prop} [Decidable c] (hp : Lends held left p) (hq : Lends held left q) :
    Lends held left (if c then p else q) := by
  split
  · exact hp
  · exact hq

theorem Loans.Has.erase {l : Loans} {h : Option ℤ} {es : List (Entry × Option ℤ)}
    (hl : l.Has ((i, h) :: es)) :
    (⟨l.held.erase i, fun j h ↦ l.seen j h ∧ j ∈ l.held.erase i⟩ : Loans).Has es where
  held := by
    have hle : (i ::ₘ (es.map Prod.fst : Multiset Entry)) ≤ l.held := hl.held
    have herase := Multiset.erase_le_erase i hle
    rwa [Multiset.erase_cons_head] at herase
  seen j h hj := by
    have hle : (i ::ₘ (es.map Prod.fst : Multiset Entry)) ≤ l.held := hl.held
    have herase := Multiset.erase_le_erase i hle
    rw [Multiset.erase_cons_head] at herase
    have hmem : j ∈ es.map Prod.fst := List.mem_map.mpr ⟨_, hj, rfl⟩
    exact ⟨hl.seen j h (List.mem_cons_of_mem _ hj), Multiset.mem_of_le herase hmem⟩

theorem Lends.drop {left' : β → List (Entry × Option ℤ)} {h : Option ℤ} {f : ℤ → Call β}
    (hf : ∀ ret, Lends held left' (f ret)) :
    Lends ((i, h) :: held) left' (Descriptor.drop i >>= f) := by
  intro es l hl
  refine ⟨Multiset.mem_of_le hl.held (List.mem_cons_self ..), fun ret _ ↦ hf ret es _ ?_⟩
  exact Loans.Has.erase (h := h) hl

theorem lends_withFd {fd : ℤ} {absent : Call α} {body : Entry → DescriptorTranslation → Call α}
    (ha : Lends held left absent) (hb : ∀ i d, Lends ((i, some d.sceUid) :: held) left (body i d)) :
    Lends held left (withFd fd absent body) := by
  refine fun es l hl ↦ ⟨trivial, fun x _ ↦ ?_⟩
  cases x with
  | none => exact ha es l hl
  | some i =>
    refine ⟨Multiset.mem_cons_self i _, fun (d : DescriptorTranslation) _ ↦ hb i d es _ ⟨?_, ?_⟩⟩
    · exact Multiset.cons_le_cons i hl.held
    · intro j h hj
      rcases List.mem_cons.mp hj with heq | hj
      · cases heq
        exact .inr ⟨rfl, rfl⟩
      · exact .inl (hl.seen j h hj)

theorem lent_use (q : Routine) : Lent ((i, some d.sceUid) :: held) (use i d q) :=
  lent_kernel fun p hp ↦ by
    cases List.mem_singleton.mp hp
    exact List.mem_cons_self ..

theorem lent_onPath (q : Routine) (c : PathCall) :
    Lent ((i, some d.sceUid) :: held) (onPath i d q c) :=
  (lent_use q).bind fun _ ↦ lent_kernel fun _ hp ↦ absurd hp List.not_mem_nil

theorem lent_plain_kernel {q : KernelAsk} (hq : q.handles = []) : Lent held (kernel q) :=
  lent_kernel fun p hp ↦ absurd hp (by rw [hq]; exact List.not_mem_nil)

theorem Lends.map (hp : Lends held (fun _ ↦ held) p) (f : α → β) : Lent held (f <$> p) :=
  Lends.bind hp fun _ ↦ lent_pure _

end

section

variable {α : Type} {net : NetErrno → ℤ} {held : List (Entry × Option ℤ)}

theorem lent_fcntl (fd : ℤ) (cmd : FcntlCmd) (arg : ℕ) : Lent held (fcntl net fd cmd arg) := by
  refine .ite (.ite (lent_pure _) fun es l hl ↦ ⟨trivial, fun x _ ↦ ?_⟩)
    (lends_withFd (lent_pure _) fun i d ↦ .ite (.drop fun _ ↦ lent_pure _)
      (.ite ?_ (.ite ?_ (.drop fun _ ↦ lent_pure _))))
  · cases x with
    | error e => exact hl
    | ok s => exact hl
  · refine .bind (lent_kernel fun p hp ↦ ?_) fun _ ↦ .drop fun _ ↦ lent_pure _
    cases List.mem_singleton.mp hp
    exact List.mem_cons_self ..
  · exact .bind (lent_use _) fun _ ↦ .drop fun _ ↦ lent_pure _

theorem lent_fchmod (fd : ℤ) (mode : ℕ) : Lent held (fchmod net fd mode) := by
  refine lends_withFd (lent_pure _) fun i d ↦ .bind ?_ fun ret ↦
    .ite (.drop fun _ ↦ lent_pure _) (.bind ?_ fun _ ↦ .drop fun _ ↦ lent_pure _)
  all_goals
    cases d.type with
    | FILE | DIRECTORY | TTY => exact lent_onPath _ _
    | SOCKET | PIPE => exact lent_pure _

theorem lent_toDateTime (t : Timespec) : Lent held (toDateTime t) := by
  unfold toDateTime
  cases t.nsec with
  | value n => exact .bind (lent_plain_kernel rfl) fun _ ↦ lent_pure _
  | UTIME_NOW | UTIME_OMIT => exact lent_plain_kernel rfl

theorem lent_newTimes (times : Option (Timespec × Timespec)) : Lent held (newTimes times) := by
  cases times with
  | none => exact .bind (lent_plain_kernel rfl) fun _ ↦ lent_pure _
  | some p =>
    exact .bind (lent_toDateTime _) fun r ↦ .ite (lent_pure _)
      (.bind (lent_toDateTime _) fun _ ↦ lent_pure _)

theorem lent_utimensat (fd : ℤ) (times : Option (Timespec × Timespec)) :
    Lent held (utimensat net fd times) := by
  refine lends_withFd (lent_pure _) fun i d ↦ .bind ?_ fun ret ↦
    .ite (.drop fun _ ↦ lent_pure _) (.bind (lent_newTimes times) fun r ↦ ?_)
  · cases d.type with
    | DIRECTORY => exact lent_onPath _ _
    | TTY | FILE => exact lent_use _
    | SOCKET | PIPE => exact lent_pure _
  · cases r with
    | error ret => exact .drop fun _ ↦ lent_pure _
    | ok t => exact .bind (lent_onPath _ _) fun _ ↦ .drop fun _ ↦ lent_pure _

theorem lent_getsockopt (sizeofTimeval : ℕ) (s level : ℤ) (optname : SockOpt) (optlen : ℕ) :
    Lent held (getsockopt net sizeofTimeval s level optname optlen) :=
  lends_withFd (lent_pure _) fun _ _ ↦ .ite (.drop fun _ ↦ lent_pure _)
    (.bind (lent_kernel fun _ hp ↦ by
      cases List.mem_singleton.mp hp
      exact List.mem_cons_self ..) fun _ ↦ .drop fun _ ↦ lent_pure _)

theorem lent_setsockopt (sizeofTimeval : ℕ) (s level : ℤ) (optname : SockOpt) (optval : ℕ)
    (timeout : ℤ × ℤ) (optlen : ℕ) :
    Lent held (setsockopt net sizeofTimeval s level optname optval timeout optlen) :=
  lends_withFd (lent_pure _) fun _ _ ↦ .ite (.drop fun _ ↦ lent_pure _)
    (.bind (lent_use _) fun _ ↦ .drop fun _ ↦ lent_pure _)

theorem lent_readdir (dirp : Option Dir) : Lent held (readdir net dirp) := by
  cases dirp with
  | none => exact lent_pure _
  | some dir =>
    refine lends_withFd (lent_pure _) fun i d ↦ .bind (lent_kernel fun p hp ↦ ?_) fun r ↦
      .drop fun _ ↦ .ite (lent_pure _) (.ite lent_fault (.ite (lent_pure _) (lent_pure _)))
    cases List.mem_singleton.mp hp
    exact List.mem_cons_self ..

theorem lent_handle (fd : ℤ) {q : KernelAsk} (hq : q.handles = []) (a : α) (f : q.Answer → α) :
    Lent held (kernel (.fhTell fd) >>= fun pos : ℤ ↦
      if pos < 0 then pure a else kernel q >>= fun ret ↦ pure (f ret) : Call α) :=
  .bind (lent_plain_kernel rfl) fun _ ↦ .ite (lent_pure _)
    (.bind (lent_plain_kernel hq) fun _ ↦ lent_pure _)

def Plain.Own (c : Plain) : Prop :=
  ∀ d type q, c.entry d = some (type, q) → q.handle = d.sceUid

theorem Plain.Positioned.own {c : Plain} {file io : ℤ → Request} (hc : c.Positioned file io)
    (hfile : ∀ n, (file n).handle = n) (hio : ∀ n, (io n).handle = n) : c.Own := by
  intro d type q h
  rw [hc] at h
  cases htype : d.type <;> rw [htype] at h <;> cases h
  · exact hfile _
  all_goals exact hio _

theorem Plain.Fits.own {c : Plain} (hc : c.Fits fun _ ↦ True) : c.Own :=
  fun d type q h ↦ (hc d type q trivial h).1

theorem lent_transfer {i : Entry} {d : DescriptorTranslation} {q : Request}
    (hq : q.handle = d.sceUid) :
    Lent ((i, some d.sceUid) :: held) (kernel (.transfer (some i) q)) :=
  lent_kernel fun p hp ↦ by
    cases List.mem_singleton.mp hp
    rw [hq]
    exact List.mem_cons_self ..

theorem lent_plain {c : Plain} (hc : c.Own) (fd : ℤ) : Lent held (c.steps net fd) := by
  unfold Plain.steps
  refine lends_withFd ?_ fun i d ↦ .bind ?_ fun _ ↦ .drop fun _ ↦ lent_pure _
  · cases c.handle with
    | none => exact lent_pure _
    | some q => exact lent_handle fd rfl _ _
  · cases hentry : c.entry d with
    | none => exact lent_pure _
    | some r => exact .bind (lent_transfer (hc d r.1 r.2 hentry)) fun _ ↦ lent_pure _

theorem lent_helper {v : VectorCall} (hv : ∀ n, (v.plain n).Own) (mem : ℕ → UInt8) (fd : ℤ)
    (iov : List (ℕ × ℕ)) : Lent held (v.helperSteps net mem fd iov) := by
  unfold VectorCall.helperSteps
  cases totalFrom 0 iov with
  | none => exact lent_pure _
  | some bytes =>
    exact .bind (lent_plain_kernel rfl) fun alloc ↦ .ite (lent_pure _)
      (.bind (lent_plain (hv _) _) fun _ ↦ lent_pure _)

theorem lent_vector {v : VectorCall} (hv : ∀ n, (v.plain n).Own)
    (hfios : ∀ n, (v.fios n).handle = n) (mem : ℕ → UInt8) (fd : ℤ) (iov : List (ℕ × ℕ)) :
    Lent held (v.steps net mem fd iov) := by
  unfold VectorCall.steps
  refine lends_withFd ?_ fun i d ↦ .bind ?_ fun _ ↦ .drop fun _ ↦ lent_pure _
  · cases (v.plain 0).handle with
    | none => exact lent_pure _
    | some q => exact lent_handle fd rfl _ _
  · have hpass {held : List (Entry × Option ℤ)} : Lent held (ask (.pass i)) :=
      fun _ _ h ↦ ⟨trivial, fun _ _ ↦ h⟩
    cases d.type with
    | TTY | PIPE | SOCKET =>
      exact .bind hpass fun _ ↦ .bind (lent_helper hv mem _ iov) fun _ ↦ lent_pure _
    | FILE => exact .bind (lent_transfer (hfios _)) fun _ ↦ lent_pure _
    | DIRECTORY => exact lent_pure _

def locked (locks : List Entry) : List (Entry × Option ℤ) := locks.map (·, none)

theorem lends_pollFd (eid : ℤ) (n : ℕ) (p : PollFd) :
    Lends held (fun r ↦ locked r.2.1.toList ++ held) (pollFd eid n p) := by
  have hnone : ∀ p k, Lends held (fun r ↦ locked r.2.1.toList ++ held) (pure (p, none, k) :
      Call (PollFd × Option Entry × ℤ)) := fun _ _ _ _ h ↦ h
  refine .ite (hnone _ _) (.ite (hnone _ _) (lends_withFd ?_ fun i d ↦ ?_))
  · exact .bind (lent_plain_kernel rfl) fun pos ↦ .ite (hnone _ _) (hnone _ _)
  · refine .ite (.drop fun _ ↦ ?_) (.bind (lent_use _) fun _ es l hl ↦ ⟨hl.held, fun j h hj ↦ ?_⟩)
    · split
      · exact hnone _ _
      · exact hnone _ _
    · exact hl.seen j h (List.mem_cons_of_mem _ (by simpa [locked] using hj))

theorem lends_pollLoop (eid : ℤ) (n : ℕ) (pfd : List PollFd) :
    Lends held (fun r ↦ locked r.2.1 ++ held) (pollLoop eid n pfd) := by
  induction pfd generalizing n held with
  | nil => exact fun _ _ h ↦ h
  | cons p pfd ih =>
    refine (lends_pollFd eid n p).seq fun r ↦ (ih (n + 1)).seq fun rs es l hl ↦ hl.perm ?_
    refine List.Perm.append_right es ?_
    rw [← List.append_assoc, locked, locked, locked, List.map_append]
    exact List.perm_append_comm.append_right held

theorem lends_dropAll (locks : List Entry) :
    Lends (locked locks ++ held) (fun _ ↦ held) (dropAll locks) := by
  induction locks with
  | nil => exact fun _ _ h ↦ h
  | cons i locks ih => exact .drop fun _ ↦ ih

theorem lent_poll (pfd : List PollFd) (timeout : ℤ) : Lent held (poll net pfd timeout) := by
  refine .ite (lent_pure _) (.ite (.bind (lent_plain_kernel rfl) fun _ ↦ lent_pure _) ?_)
  refine .bind (lent_plain_kernel rfl) fun eid ↦ .ite (lent_pure _) ?_
  exact (lends_pollLoop eid 0 pfd).seq fun r ↦ .bind (lent_plain_kernel rfl) fun nev ↦
    .bind (lent_plain_kernel rfl) fun _ ↦ (lends_dropAll _).seq fun _ ↦ lent_pure _

theorem lends_selectFd (eid : ℤ) (sets : FdSets) (i : ℕ) :
    Lends held (fun lock ↦ locked lock.toList ++ held) (selectFd eid sets i) := by
  refine .ite (fun _ _ h ↦ h) (lends_withFd (fun _ _ h ↦ h) fun _ d ↦ .ite ?_ ?_)
  · exact .drop fun _ _ _ h ↦ h
  · refine .bind (lent_use _) fun _ es l hl ↦ ⟨hl.held, fun j h hj ↦ ?_⟩
    exact hl.seen j h (List.mem_cons_of_mem _ (by simpa [locked] using hj))

theorem lends_selectLoop (eid : ℤ) (sets : FdSets) (fds : List ℕ) :
    Lends held (fun locks ↦ locked locks ++ held) (selectLoop eid sets fds) := by
  induction fds generalizing held with
  | nil => exact fun _ _ h ↦ h
  | cons i fds ih =>
    refine (lends_selectFd eid sets i).seq fun lock ↦ ih.seq fun locks es l hl ↦ hl.perm ?_
    refine List.Perm.append_right es ?_
    rw [← List.append_assoc, locked, locked, locked, List.map_append]
    exact List.perm_append_comm.append_right held

theorem lent_fdSetIf (on : Bool) (fd : ℤ) (set : Option FdSet) :
    Lent held (fdSetIf on fd set) := by
  refine .ite ?_ (lent_pure _)
  cases set with
  | none => exact lent_fault
  | some set => exact lent_pure _

theorem lent_markAll (sets : FdSets) (res : ℤ) (events : List EpollEvent) :
    Lent held (markAll sets res events) := by
  induction events generalizing sets res with
  | nil => exact lent_pure _
  | cons e events ih =>
    have hmark : Lent held (markEvent sets e) :=
      .bind (lent_fdSetIf _ _ _) fun _ ↦ .bind (lent_fdSetIf _ _ _) fun _ ↦
        .bind (lent_fdSetIf _ _ _) fun _ ↦ lent_pure _
    exact .bind hmark fun r ↦ ih _ _

theorem lent_select (nfds : ℤ) (sets : FdSets) (timeout : Option (ℤ × ℤ)) :
    Lent held (select net nfds sets timeout) := by
  refine .ite (lent_pure _) (.ite ?_ ?_)
  · exact .ite (.bind (lent_plain_kernel rfl) fun _ ↦ lent_pure _) (lent_pure _)
  · refine .bind (lent_plain_kernel rfl) fun eid ↦ .ite (lent_pure _) ?_
    refine (lends_selectLoop eid sets _).seq fun locks ↦ .bind (lent_plain_kernel rfl) fun nev ↦ ?_
    refine .bind ?_ fun r ↦ .bind (lent_plain_kernel rfl) fun _ ↦
      (lends_dropAll locks).seq fun _ ↦ lent_pure _
    cases nev with
    | error n => exact lent_pure _
    | ok events => exact .bind (lent_markAll _ _ _) fun _ ↦ lent_pure _

theorem lent_socketCall (s : ℤ) (q : Routine) (value : ℤ → ℤ) :
    Lent held (socketCall net s q value) :=
  lends_withFd (lent_pure _) fun _ _ ↦ .bind (lent_use _) fun _ ↦ .drop fun _ ↦ lent_pure _

/-- `rewinddir`, which gives an entry another handle and takes no lock for it. -/
def FdCall.Rewinds : FdCall → Prop
  | rewinddir _ => True
  | _ => False

/-- All calls that take a descriptor keep to the loans, but for `rewinddir`. -/
theorem FdCall.lent {c : FdCall} (hc : ¬ c.Rewinds) : Lent held (c.steps net) := by
  cases c with
  | read len => exact (lent_plain (read_fits _).own _).map _
  | write => exact (lent_plain (write_fits _).own _).map _
  | pread fd len off =>
    exact (lent_plain ((preadPlain_positioned len off).own (fun _ ↦ rfl) fun _ ↦ rfl) _).map _
  | pwrite fd bytes off =>
    exact (lent_plain ((pwritePlain_positioned bytes off).own (fun _ ↦ rfl) fun _ ↦ rfl) _).map _
  | readv mem fd iov => exact (lent_vector (fun _ ↦ (read_fits _).own) (fun _ ↦ rfl) _ _ _).map _
  | writev mem fd iov => exact (lent_vector (fun _ ↦ (write_fits _).own) (fun _ ↦ rfl) _ _ _).map _
  | preadv mem fd iov off =>
    refine (lent_vector (fun n ↦ ?_) (fun _ ↦ rfl) _ _ _).map _
    exact (preadPlain_positioned n off).own (fun _ ↦ rfl) fun _ ↦ rfl
  | pwritev mem fd iov off =>
    refine (lent_vector (fun n ↦ ?_) (fun _ ↦ rfl) _ _ _).map _
    exact (pwritePlain_positioned _ off).own (fun _ ↦ rfl) fun _ ↦ rfl
  | lseek fd off dir =>
    refine .bind (lends_withFd ?_ fun i d ↦ .bind ?_ fun _ ↦ .drop fun _ ↦ lent_pure _)
      fun ret ↦ ?_
    · exact lent_handle fd rfl _ _
    · cases d.type with
      | FILE => exact lent_use _
      | _ => exact lent_pure _
    · cases ret <;> exact lent_pure _
  | fsync fd =>
    refine lends_withFd (lent_pure _) fun i d ↦ .bind ?_ fun _ ↦ .drop fun _ ↦ lent_pure _
    cases d.type with
    | DIRECTORY => exact lent_onPath _ _
    | FILE => exact lent_use _
    | TTY | SOCKET | PIPE => exact lent_pure _
  | ftruncate fd length =>
    refine lends_withFd (lent_pure _) fun i d ↦ .bind ?_ fun _ ↦ .drop fun _ ↦ lent_pure _
    cases d.type with
    | FILE => exact lent_use _
    | _ => exact lent_pure _
  | fstat fd =>
    refine .bind (lends_withFd ?_ fun i d ↦ .bind ?_ fun _ ↦ .drop fun _ ↦ lent_pure _)
      fun ret ↦ ?_
    · exact lent_handle fd rfl _ _
    · cases d.type with
      | DIRECTORY => exact lent_onPath _ _
      | FILE => exact lent_use _
      | TTY | SOCKET | PIPE => exact lent_pure _
    · cases ret <;> exact lent_pure _
  | fstatvfs fd =>
    refine lends_withFd (lent_pure _) fun i d ↦ ?_
    cases d.type with
    | TTY | SOCKET | PIPE => exact .drop fun _ ↦ lent_pure _
    | FILE | DIRECTORY => exact .bind (lent_onPath _ _) fun _ ↦ .drop fun _ ↦ lent_pure _
  | fchmod fd mode => exact lent_fchmod fd mode
  | fchdir fd =>
    refine lends_withFd (lent_pure _) fun i d ↦ ?_
    cases d.type with
    | TTY | FILE | SOCKET | PIPE => exact .drop fun _ ↦ lent_pure _
    | DIRECTORY => exact .bind (lent_onPath _ _) fun _ ↦ .drop fun _ ↦ lent_pure _
  | utimensat fd times => exact lent_utimensat fd times
  | readdir dirp => exact (lent_readdir dirp).map _
  | rewinddir dirp => exact absurd trivial hc
  | fcntl fd cmd arg => exact lent_fcntl fd cmd arg
  | poll pfd timeout => exact (lent_poll pfd timeout).map _
  | select nfds sets timeout => exact (lent_select nfds sets timeout).map _
  | getsockopt => exact (lent_getsockopt _ _ _ _ _).map _
  | setsockopt => exact lent_setsockopt _ _ _ _ _ _ _
  | socketCall s c => cases c <;> exact lent_socketCall _ _ _

end

end SceLibcPosix.Descriptor
