import SceLibcPosix.Descriptor.Create
import SceLibcPosix.Descriptor.Frame

namespace SceLibcPosix.Descriptor

open VitaError References Relation

/-- What a call has created before it takes a descriptor. `dir` is what `open` has found out about
its path. -/
inductive Creation
  | open' (dir oDirectory : Bool) (handle : ℤ)
  | socket (id : ℤ)
  | accept (id : ℤ)
  | pipe (uid : ℤ)
deriving DecidableEq, Repr

namespace Creation

def object : Creation → KernelObject
  | open' dir oDirectory handle => if dir && oDirectory then .directory handle else .file handle
  | socket id | accept id => .socket id
  | pipe uid => .msgPipe uid

def uid : Creation → ℤ
  | open' _ _ handle => handle
  | socket id | accept id => id
  | pipe uid => uid

def type : Creation → DescriptorTypes
  | open' dir _ _ => if dir then .DIRECTORY else .FILE
  | socket _ | accept _ => .SOCKET
  | pipe _ => .PIPE

/-- What the call does without a descriptor; `r` is what the close routine returns. -/
def undo (c : Creation) (r : ℤ) (t : Table) : Table :=
  match c with
  | open' dir _ handle => t.call (.close (if dir then .directory handle else .file handle) r)
  | pipe uid => t.call (.close (.msgPipe uid) r)
  | socket _ | accept _ => t

/-- The call stores the type of what it has created. -/
def Typed (c : Creation) : Prop :=
  (⟨c.uid, c.type, 1⟩ : DescriptorTranslation).object = c.object

end Creation

/-- Where a thread stands in `open`, `socket`, `accept` or `pipe`. `i` and `stamp` are the entry
that `__acquire_descriptor` has taken and for the how manieth time it has been taken, which the code
does not keep. -/
inductive Phase
  | idle
  | created (c : Creation)
  | acquired (c : Creation) (fd : Slot) (i : Entry) (stamp : ℕ)
  | uidStored (c : Creation) (fd : Slot) (i : Entry) (stamp : ℕ)
  | installed (uid : ℤ) (fd : Slot)
deriving DecidableEq, Repr

/-- The descriptor table, the grabs that are not dropped yet, how often each entry has been taken
and where each thread stands. -/
structure System extends World where
  stamp : Entry → ℕ
  phase : ℕ → Phase

/-- The steps of all threads: an operation under the mutex, or one of the steps of a call that
creates a descriptor. -/
inductive Action
  | op (op : Op)
  | create (n : ℕ) (c : Creation)
  | acquire (n : ℕ) (r : ℤ)
  | storeUid (n : ℕ)
  | storeType (n : ℕ)
  | second (n : ℕ) (r : ℤ)
deriving DecidableEq, Repr

def Table.storeUid (t : Table) (fd : Slot) (uid : ℤ) : Table :=
  match t.fdmap fd with
  | none => t
  | some i => t.setEntry i { t.pool i with sceUid := uid }

def Table.storeType (t : Table) (fd : Slot) (type : DescriptorTypes) : Table :=
  match t.fdmap fd with
  | none => t
  | some i => t.setEntry i { t.pool i with type := type }

namespace System

/-- A step of thread `n` that leaves the table `t`. -/
def move (w : System) (n : ℕ) (t : Table) (p : Phase) : System :=
  { w with table := t, phase := Function.update w.phase n p }

def acquire (w : System) (n : ℕ) (c : Creation) (r : ℤ) : Option Slot × Table → System
  | (none, t) => w.move n (c.undo r t) .idle
  | (some fd, t) =>
    match t.fdmap fd with
    | none => w
    | some i =>
      { w.move n t (.acquired c fd i (w.stamp i + 1)) with
        stamp := Function.update w.stamp i (w.stamp i + 1) }

end System

/-- A step of a thread that does not stand there does nothing. -/
def Action.run (net : NetErrno → ℤ) (w : System) : Action → System
  | .op o => { w with toWorld := o.run net w.toWorld }
  | .create n c =>
    match w.phase n with
    | .idle => w.move n (w.table.call (.created c.object)) (.created c)
    | _ => w
  | .acquire n r =>
    match w.phase n with
    | .created c => w.acquire n c r (acquireDescriptor w.table)
    | _ => w
  | .storeUid n =>
    match w.phase n with
    | .acquired c fd i stamp => w.move n (w.table.storeUid fd c.uid) (.uidStored c fd i stamp)
    | _ => w
  | .storeType n =>
    match w.phase n with
    | .uidStored c fd _ _ =>
      w.move n (w.table.storeType fd c.type)
        (match c with | .pipe uid => .installed uid fd | _ => .idle)
    | _ => w
  | .second n r =>
    match w.phase n with
    | .installed uid fd =>
      match duplicateDescriptor w.table fd.val 0 with
      | (.error _, t) => w.move n (t.call (.close (.msgPipe uid) r)) .idle
      | (.ok _, t) => w.move n t .idle
    | _ => w

def Op.Shared : Op → Prop
  | .acquire | .fill _ _ _ => False
  | _ => True

def Op.Names : Op → Slot → Prop
  | .release fd _ | .duplicate fd _ | .grab fd => fun s ↦ fd = s.val
  | .duplicate2 oldfd newfd _ => fun s ↦ oldfd = s.val ∨ newfd = s
  | .acquire | .fill _ _ _ | .drop _ _ => fun _ ↦ False

/-- What a slot that has been taken and not filled yet stands for. -/
structure Pending where
  slot : Slot
  entry : Entry
  stamp : ℕ
  uid : ℤ

def Phase.pending : Phase → Option Pending
  | .acquired _ fd i stamp => some ⟨fd, i, stamp, 0⟩
  | .uidStored c fd i stamp => some ⟨fd, i, stamp, c.uid⟩
  | .idle | .created _ | .installed _ _ => none

def Phase.creation : Phase → Option Creation
  | .created c | .acquired c _ _ _ | .uidStored c _ _ _ => some c
  | .idle | .installed _ _ => none

def System.Pending (w : System) (n : ℕ) (p : Pending) : Prop := (w.phase n).pending = some p

def Action.Names (w : System) : Action → Slot → Prop
  | .op o => o.Names
  | .second n _ => fun s ↦ ∃ uid, w.phase n = .installed uid s
  | _ => fun _ ↦ False

def Action.Enabled (w : System) : Action → Prop
  | .op o => o.Shared ∧ o.Matched w.toWorld
  | _ => True

/-- No step names a descriptor that another call is about to fill, and no directory is opened
without `O_DIRECTORY`. -/
structure Action.Orderly (w : System) (a : Action) : Prop where
  isolated : ∀ s, a.Names w s → ∀ n p, w.Pending n p → p.slot ≠ s
  typed : ∀ n c, a = .create n c → c.Typed

/-- The steps of all threads, in any order. -/
inductive SystemStep (net : NetErrno → ℤ) (Ok : System → Action → Prop) : System → System → Prop
  | action (w : System) (a : Action) (hen : a.Enabled w) (hok : Ok w a) :
    SystemStep net Ok w (a.run net w)

def initSystem (stdin stdout stderr : ℤ) : System where
  table := initFd stdin stdout stderr
  grabs := fun _ ↦ 0
  stamp := fun _ ↦ 0
  phase := fun _ ↦ .idle

/-- The entry holds the uid and the type of an object that has been created. -/
def Built (tty : List ℤ) (t : Table) (d : DescriptorTranslation) : Prop :=
  (∃ uid ∈ tty, d.object = .stdio uid) ∨ .created d.object ∈ t.calls

def NoHalfBuilt (tty : List ℤ) (w : System) : Prop :=
  ∀ fd i, (fdGrab w.table fd).1 = some i → Built tty w.table (w.table.pool i)

/-- The stores to come reach the entry that the call itself has taken. -/
def StoresReach (w : System) : Prop :=
  ∀ n p, w.Pending n p → w.table.fdmap p.slot = some p.entry ∧ w.stamp p.entry = p.stamp

/-- The threads that stand between their `__acquire_descriptor` and their second store hold what
they have taken, and all other descriptors are filled. -/
structure Sound (tty : List ℤ) (w : System) : Prop where
  covers : Covers w.table w.grabs
  pending : ∀ n p, w.Pending n p → w.table.fdmap p.slot = some p.entry ∧
    w.table.pool p.entry = ⟨p.uid, .FILE, 1⟩ ∧ w.stamp p.entry = p.stamp
  own : ∀ n n' p p', w.Pending n p → w.Pending n' p' → p.slot = p'.slot → n = n'
  made : ∀ n c, (w.phase n).creation = some c → .created c.object ∈ w.table.calls ∧ c.Typed
  built : ∀ s i, w.table.fdmap s = some i → (∀ n p, w.Pending n p → p.slot ≠ s) →
    Built tty w.table (w.table.pool i)

section

variable {net : NetErrno → ℤ} {tty : List ℤ} {w : System} {t t' : Table} {n : ℕ}
  {named : Slot → Prop} {dropped : Entry → Prop}

theorem Built.mono {d d' : DescriptorTranslation} (h : Built tty t d) (hobj : d'.object = d.object)
    (hcalls : t.calls ⊆ t'.calls) : Built tty t' d' := by
  rw [Built, hobj]
  exact h.imp_right fun h ↦ hcalls h

theorem Sound.frame (hw : Sound tty w) {g' : Entry → ℕ} (hf : Frame named dropped w.table t')
    (hc : Covers t' g') (hnamed : ∀ s, named s → ∀ n p, w.Pending n p → p.slot ≠ s)
    (hdropped : ∀ i, dropped i → 0 < w.grabs i) :
    Sound tty { w with table := t', grabs := g' } where
  covers := hc
  pending n p hp := by
    obtain ⟨hslot, hpool, hstamp⟩ := hw.pending n p hp
    have hpos := hw.covers.count p.entry
    have hone := refs_pos.mpr ⟨p.slot, hslot⟩
    rw [hpool] at hpos
    have hfree : ¬ dropped p.entry := fun h ↦ by
      have := hdropped _ h
      dsimp only at hpos
      omega
    have hsame : ∀ s, named s → w.table.fdmap s ≠ some p.entry := by
      intro s hs hsi
      have hslots : s = p.slot := refs_unique (by dsimp only at hpos; omega) hsi hslot
      exact hnamed s hs n p hp hslots.symm
    refine ⟨?_, (hf.entry _ hfree hsame).trans hpool, hstamp⟩
    have hnot : ¬ named p.slot := fun h ↦ hnamed _ h n p hp rfl
    exact (hf.slot _ hnot (by simp [hslot])).trans hslot
  own := hw.own
  made n c h := by
    obtain ⟨hm, ht⟩ := hw.made n c h
    exact ⟨hf.calls hm, ht⟩
  built s i hi hno := by
    obtain ⟨huid, htype⟩ := hf.object s i hi
    have hold : Built tty w.table (w.table.pool i) := by
      rcases hf.target s i hi with hsi | ⟨s', hs', hsi⟩
      · exact hw.built s i hsi hno
      · exact hw.built s' i hsi (hnamed s' hs')
    refine hold.mono ?_ hf.calls
    unfold DescriptorTranslation.object
    rw [huid, htype]

theorem pending_move {q : Phase} {n' : ℕ} {p : Pending} : (w.move n t q).Pending n' p ↔
    n' = n ∧ q.pending = some p ∨ n' ≠ n ∧ w.Pending n' p := by
  unfold System.Pending System.move
  dsimp only
  by_cases h : n' = n
  · subst h
    simp
  · simp [h]

theorem creation_move {q : Phase} {n' : ℕ} {c : Creation}
    (h : ((w.move n t q).phase n').creation = some c) :
    n' = n ∧ q.creation = some c ∨ n' ≠ n ∧ (w.phase n').creation = some c := by
  unfold System.move at h
  dsimp only at h
  by_cases hn : n' = n
  · subst hn
    rw [Function.update_self] at h
    exact .inl ⟨rfl, h⟩
  · rw [Function.update_of_ne hn] at h
    exact .inr ⟨hn, h⟩

theorem pending_pass {q : Phase} (hold : (w.phase n).pending = none) (hnew : q.pending = none)
    (n' : ℕ) (p : Pending) : (w.move n t q).Pending n' p ↔ w.Pending n' p := by
  rw [pending_move]
  constructor
  · rintro (⟨-, h⟩ | ⟨-, h⟩)
    · rw [hnew] at h
      cases h
    · exact h
  · intro h
    refine .inr ⟨?_, h⟩
    rintro rfl
    rw [System.Pending, hold] at h
    cases h

theorem Sound.pass (hw : Sound tty w) {q : Phase} (hf : t'.fdmap = w.table.fdmap)
    (hp : t'.pool = w.table.pool) (hcalls : w.table.calls ⊆ t'.calls)
    (hold : (w.phase n).pending = none) (hnew : q.pending = none)
    (hmade : ∀ c, q.creation = some c → .created c.object ∈ t'.calls ∧ c.Typed) :
    Sound tty (w.move n t' q) := by
  have hpend := pending_pass (w := w) (t := t') hold hnew
  have htable : (w.move n t' q).table = t' := rfl
  constructor
  · have hc : Covers ⟨w.table.fdmap, w.table.pool, t'.held, t'.calls⟩ w.grabs :=
      hw.covers.fewer fun _ ↦ le_rfl
    rw [← hf, ← hp] at hc
    exact hc
  · intro n' p h
    rw [htable, hf, hp]
    exact hw.pending n' p ((hpend n' p).mp h)
  · intro n₁ n₂ p₁ p₂ h₁ h₂
    exact hw.own n₁ n₂ p₁ p₂ ((hpend n₁ p₁).mp h₁) ((hpend n₂ p₂).mp h₂)
  · intro n' c h
    rcases creation_move h with ⟨-, h⟩ | ⟨-, h⟩
    · exact hmade c h
    · exact (hw.made n' c h).imp_left fun hm ↦ hcalls hm
  · intro s i hi hno
    rw [htable] at hi ⊢
    rw [hf] at hi
    rw [hp]
    exact (hw.built s i hi fun n' p h ↦ hno n' p ((hpend n' p).mpr h)).mono rfl hcalls

theorem Sound.slot_unique (hw : Sound tty w) {p : Pending} (hp : w.Pending n p) {s : Slot}
    (hs : w.table.fdmap s = some p.entry) : s = p.slot := by
  obtain ⟨hslot, hpool, -⟩ := hw.pending n p hp
  have hcount := hw.covers.count p.entry
  rw [hpool] at hcount
  dsimp only at hcount
  exact refs_unique (by omega) hs hslot

theorem Sound.made_move (hw : Sound tty w) {q : Phase}
    (hmade : ∀ c, q.creation = some c → (w.phase n).creation = some c) {n' : ℕ} {c : Creation}
    (h : ((w.move n t q).phase n').creation = some c) :
    .created c.object ∈ w.table.calls ∧ c.Typed := by
  rcases creation_move h with ⟨rfl, hq⟩ | ⟨-, hold⟩
  · exact hw.made n' c (hmade c hq)
  · exact hw.made n' c hold

theorem Sound.pending_apart (hw : Sound tty w) {s : Slot} {i : Entry}
    (hs : w.table.fdmap s = none) (hi : (w.table.pool i).refCount = 0) {p : Pending}
    (hp : w.Pending n p) : p.slot ≠ s ∧ p.entry ≠ i := by
  obtain ⟨hfd, hpool, -⟩ := hw.pending n p hp
  constructor
  · rintro rfl
    cases hs.symm.trans hfd
  · rintro rfl
    rw [hpool] at hi
    cases hi

theorem Sound.store (hw : Sound tty w) {p : Pending} (hp : w.Pending n p)
    {d : DescriptorTranslation} {q : Phase} (hd : d.refCount = 1)
    (hq : q.pending = none ∧ Built tty w.table d ∨
      ∃ u, q.pending = some { p with uid := u } ∧ d = ⟨u, .FILE, 1⟩)
    (hmade : ∀ c, q.creation = some c → (w.phase n).creation = some c) :
    Sound tty (w.move n (w.table.setEntry p.entry d) q) := by
  obtain ⟨hslot, hpool, hstamp⟩ := hw.pending n p hp
  have hother : ∀ n' p', n' ≠ n → w.Pending n' p' → p'.entry ≠ p.entry := by
    intro n' p' hne hp' heq
    have hslot' := (hw.pending n' p' hp').1
    rw [heq] at hslot'
    exact hne (hw.own n' n p' p hp' hp (hw.slot_unique hp hslot'))
  have hself : (w.table.setEntry p.entry d).pool p.entry = d := Function.update_self _ _ _
  have hrest : ∀ i, i ≠ p.entry → (w.table.setEntry p.entry d).pool i = w.table.pool i :=
    fun i hi ↦ Function.update_of_ne hi _ _
  constructor
  · exact hw.covers.refill (by rw [hd, hpool]) (by rw [hd]; decide)
  · intro n' p' h'
    rcases pending_move.mp h' with ⟨rfl, h⟩ | ⟨hne, h⟩
    · rcases hq with ⟨hq, -⟩ | ⟨u, hq, rfl⟩
      · cases hq.symm.trans h
      · obtain rfl := Option.some.inj (hq.symm.trans h)
        exact ⟨hslot, hself, hstamp⟩
    · obtain ⟨hslot', hpool', hstamp'⟩ := hw.pending n' p' h
      exact ⟨hslot', (hrest _ (hother n' p' hne h)).trans hpool', hstamp'⟩
  · intro n₁ n₂ p₁ p₂ h₁ h₂ heq
    have hlift : ∀ n' p', (w.move n (w.table.setEntry p.entry d) q).Pending n' p' →
        ∃ p'', w.Pending n' p'' ∧ p''.slot = p'.slot := by
      intro n' p' h'
      rcases pending_move.mp h' with ⟨rfl, h⟩ | ⟨-, h⟩
      · rcases hq with ⟨hq, -⟩ | ⟨u, hq, -⟩
        · cases hq.symm.trans h
        · obtain rfl := Option.some.inj (hq.symm.trans h)
          exact ⟨p, hp, rfl⟩
      · exact ⟨p', h, rfl⟩
    obtain ⟨q₁, hq₁, hs₁⟩ := hlift n₁ p₁ h₁
    obtain ⟨q₂, hq₂, hs₂⟩ := hlift n₂ p₂ h₂
    exact hw.own n₁ n₂ q₁ q₂ hq₁ hq₂ (hs₁.trans (heq.trans hs₂.symm))
  · exact fun n' c h ↦ hw.made_move hmade h
  · intro s i hi hno
    replace hi : w.table.fdmap s = some i := hi
    by_cases heq : i = p.entry
    · subst heq
      have hs := hw.slot_unique hp hi
      rcases hq with ⟨-, hb⟩ | ⟨u, hq, -⟩
      · exact hb.mono (congrArg _ hself) (List.Subset.refl _)
      · have hne := hno n { p with uid := u } (pending_move.mpr (.inl ⟨rfl, hq⟩))
        exact absurd hs.symm hne
    · have hb : Built tty w.table (w.table.pool i) := by
        refine hw.built s i hi fun n' p' h hs ↦ ?_
        by_cases hn : n' = n
        · subst hn
          obtain rfl := Option.some.inj (hp.symm.trans h)
          exact heq (Option.some.inj ((hs ▸ hi).symm.trans hslot))
        · exact hno n' p' (pending_move.mpr (.inr ⟨hn, h⟩)) hs
      exact hb.mono (congrArg _ (hrest i heq)) (List.Subset.refl _)

theorem Sound.taken (hw : Sound tty w) {c : Creation} (hn : w.phase n = .created c) {s : Slot}
    {i : Entry} (hs : w.table.fdmap s = none) (hi : (w.table.pool i).refCount = 0) :
    Sound tty
      { w.move n ((w.table.setSlot s (some i)).setEntry i { w.table.pool i with refCount := 1 })
          (.acquired c s i (w.stamp i + 1)) with
        stamp := Function.update w.stamp i (w.stamp i + 1) } := by
  have hcount := hw.covers.count i
  have hclear := hw.covers.clear i hi
  have hslot : ∀ s', s' ≠ s → Function.update w.table.fdmap s (some i) s' = w.table.fdmap s' :=
    fun s' h ↦ Function.update_of_ne h _ _
  have hentry : ∀ j, j ≠ i →
      Function.update w.table.pool i { w.table.pool i with refCount := 1 } j = w.table.pool j :=
    fun j h ↦ Function.update_of_ne h _ _
  have hold : ∀ n' p', w.Pending n' p' → p'.slot ≠ s ∧ p'.entry ≠ i :=
    fun _ _ h ↦ hw.pending_apart hs hi h
  have hpend : ∀ n' p', (w.move n w.table (.acquired c s i (w.stamp i + 1))).Pending n' p' →
      n' = n ∧ p' = ⟨s, i, w.stamp i + 1, 0⟩ ∨ n' ≠ n ∧ w.Pending n' p' := by
    intro n' p' h
    rcases pending_move.mp h with ⟨hn', h⟩ | h
    · exact .inl ⟨hn', (Option.some.inj h).symm⟩
    · exact .inr h
  constructor
  · exact hw.covers.taken hs hi
  · intro n' p' h
    rcases hpend n' p' h with ⟨rfl, rfl⟩ | ⟨-, h⟩
    · refine ⟨Function.update_self _ _ _, ?_, Function.update_self _ _ _⟩
      have hself : Function.update w.table.pool i { w.table.pool i with refCount := 1 } i =
          { w.table.pool i with refCount := 1 } := Function.update_self _ _ _
      exact hself.trans (by rw [hclear])
    · obtain ⟨hfd, hpool, hstamp⟩ := hw.pending n' p' h
      obtain ⟨hs', hi'⟩ := hold n' p' h
      refine ⟨(hslot _ hs').trans hfd, (hentry _ hi').trans hpool, ?_⟩
      exact (Function.update_of_ne hi' _ _).trans hstamp
  · intro n₁ n₂ p₁ p₂ h₁ h₂ heq
    rcases hpend n₁ p₁ h₁ with ⟨rfl, rfl⟩ | ⟨-, hold₁⟩
    · rcases hpend n₂ p₂ h₂ with ⟨rfl, rfl⟩ | ⟨-, hold₂⟩
      · rfl
      · exact absurd heq.symm (hold n₂ p₂ hold₂).1
    · rcases hpend n₂ p₂ h₂ with ⟨rfl, rfl⟩ | ⟨-, hold₂⟩
      · exact absurd heq (hold n₁ p₁ hold₁).1
      · exact hw.own n₁ n₂ p₁ p₂ hold₁ hold₂ heq
  · exact fun n' c' h ↦ hw.made_move (t := w.table) (fun c h ↦ by rw [hn]; exact h) h
  · intro s' j hj hno
    have hne : s' ≠ s := by
      rintro rfl
      exact hno n ⟨s', i, w.stamp i + 1, 0⟩
        (pending_move (t := w.table).mpr (.inl ⟨rfl, rfl⟩)) rfl
    replace hj : w.table.fdmap s' = some j := (hslot s' hne).symm.trans hj
    have hji : j ≠ i := by
      rintro rfl
      have := hw.covers.slot_pos hj
      omega
    have hb : Built tty w.table (w.table.pool j) := by
      refine hw.built s' j hj fun n' p' h hs' ↦ ?_
      by_cases hn' : n' = n
      · subst hn'
        rw [System.Pending, hn] at h
        cases h
      · exact hno n' p' (pending_move (t := w.table).mpr (.inr ⟨hn', h⟩)) hs'
    exact hb.mono (congrArg _ (hentry j hji)) (List.Subset.refl _)

/-- The steps of a call in a row do what it does without other threads. -/
theorem acquire_store_store {c : Creation} (hn : w.phase n = .created c) (r : ℤ) :
    ((Action.storeType n).run net ((Action.storeUid n).run net
      ((Action.acquire n r).run net w))).table =
      (install w.table c.uid c.type (c.undo r)).2 := by
  have hout := acquireDescriptor_outcome w.table
  have hacquire : (Action.acquire n r).run net w = w.acquire n c r (acquireDescriptor w.table) := by
    simp only [Action.run, hn]
  rw [hacquire, install]
  generalize acquireDescriptor w.table = res at hout ⊢
  cases hout with
  | full h => simp [Action.run, System.acquire, System.move]
  | taken s i hs hi =>
    simp [Action.run, System.acquire, System.move, Table.storeUid, Table.storeType, Table.fillSlot,
      Table.fill, Table.setEntry]

theorem Creation.undo_spec (c : Creation) (r : ℤ) (t : Table) : (c.undo r t).fdmap = t.fdmap ∧
    (c.undo r t).pool = t.pool ∧ t.calls ⊆ (c.undo r t).calls := by
  cases c with
  | open' | pipe => exact ⟨rfl, rfl, List.subset_cons_self _ _⟩
  | socket | accept => exact ⟨rfl, rfl, List.Subset.refl _⟩

theorem Sound.op (hw : Sound tty w) {o : Op} (hshared : o.Shared) (hm : o.Matched w.toWorld)
    (hno : ∀ s, o.Names s → ∀ n p, w.Pending n p → p.slot ≠ s) :
    Sound tty { w with toWorld := o.run net w.toWorld } := by
  have hc := hw.covers
  cases o with
  | acquire => exact hshared.elim
  | fill => exact hshared.elim
  | release fd r =>
    have hout := releaseDescriptor_outcome net w.table fd r
    exact hw.frame (frame_release hc hout fun _ ↦ id) (hc.release hout)
      hno fun _ ↦ False.elim
  | duplicate fd minfd =>
    have hout := duplicateDescriptor_outcome w.table fd minfd
    exact hw.frame (frame_duplicate hout fun _ ↦ id) (hc.duplicate hout)
      hno fun _ ↦ False.elim
  | duplicate2 oldfd newfd r =>
    have hout := duplicateDescriptor2_outcome net w.table oldfd newfd r
    have hframe : Frame (Op.duplicate2 oldfd newfd r).Names (fun _ ↦ False) w.table _ :=
      frame_duplicate2 hc hout (fun _ ↦ .inl) (.inr rfl)
    exact hw.frame hframe (hc.duplicate2 hout) hno fun _ ↦ False.elim
  | grab fd =>
    have hout := fdGrab_outcome w.table fd
    simp only [Op.run]
    generalize fdGrab w.table fd = res at hout ⊢
    cases hout with
    | refused => exact hw
    | grabbed s i h =>
      obtain ⟨hs, hi⟩ := openAt_eq_some.mp h
      exact hw.frame (frame_grab hi hs) (hc.grab hi) hno
        fun _ ↦ False.elim
  | drop i r =>
    have hout := fdDrop_outcome net w.table i r
    refine hw.frame (frame_drop hc hm hout rfl) (hc.drop hm hout) (fun _ ↦ False.elim) ?_
    rintro j rfl
    exact hm

theorem Sound.acquire (hw : Sound tty w) (n : ℕ) (r : ℤ) :
    Sound tty ((Action.acquire n r).run net w) := by
  simp only [Action.run]
  split
  · next c hn =>
    have hout := acquireDescriptor_outcome w.table
    generalize acquireDescriptor w.table = res at hout ⊢
    cases hout with
    | full h =>
      obtain ⟨hf, hp, hcalls⟩ := c.undo_spec r w.table
      exact hw.pass hf hp hcalls (by rw [hn]; rfl) rfl fun c' hc' ↦ by cases hc'
    | taken s i hs hi =>
      have hself : ((w.table.setSlot s (some i)).setEntry i
          { w.table.pool i with refCount := 1 }).fdmap s = some i := Function.update_self _ _ _
      simp only [System.acquire, hself]
      exact hw.taken hn hs.free hi
  · exact hw

theorem Sound.storeUid (hw : Sound tty w) (n : ℕ) :
    Sound tty ((Action.storeUid n).run net w) := by
  simp only [Action.run]
  split
  · next c fd i stamp hn =>
    have hp : w.Pending n ⟨fd, i, stamp, 0⟩ := by rw [System.Pending, hn]; rfl
    obtain ⟨hfd, hpool, -⟩ := hw.pending n _ hp
    have hstore : w.table.storeUid fd c.uid = w.table.setEntry i ⟨c.uid, .FILE, 1⟩ := by
      simp only at hfd hpool
      rw [Table.storeUid, hfd]
      dsimp only
      rw [hpool]
    rw [hstore]
    apply hw.store hp rfl
    · exact .inr ⟨c.uid, rfl, rfl⟩
    · intro c' hc'
      rw [hn]
      exact hc'
  · exact hw

theorem Sound.storeType (hw : Sound tty w) (n : ℕ) :
    Sound tty ((Action.storeType n).run net w) := by
  simp only [Action.run]
  split
  · next c fd i stamp hn =>
    have hp : w.Pending n ⟨fd, i, stamp, c.uid⟩ := by rw [System.Pending, hn]; rfl
    obtain ⟨hfd, hpool, -⟩ := hw.pending n _ hp
    obtain ⟨hmade, htyped⟩ := hw.made n c (by rw [hn]; rfl)
    have hstore : w.table.storeType fd c.type = w.table.setEntry i ⟨c.uid, c.type, 1⟩ := by
      simp only at hfd hpool
      rw [Table.storeType, hfd]
      dsimp only
      rw [hpool]
    have hbuilt : Built tty w.table ⟨c.uid, c.type, 1⟩ := .inr (htyped ▸ hmade)
    rw [hstore]
    apply hw.store hp rfl
    · left
      exact ⟨by cases c <;> rfl, hbuilt⟩
    · intro c' hc'
      cases c <;> cases hc'
  · exact hw

theorem Sound.second (hw : Sound tty w) (n : ℕ) (r : ℤ)
    (hok : (Action.second n r).Orderly w) : Sound tty ((Action.second n r).run net w) := by
  simp only [Action.run]
  split
  · next uid fd hn =>
    have hnone : (w.phase n).pending = none := by rw [hn]; rfl
    have hout := duplicateDescriptor_outcome w.table fd.val 0
    have hno : ∀ s : Slot, (fd.val : ℤ) = s.val → ∀ n p, w.Pending n p → p.slot ≠ s := by
      intro s hs
      obtain rfl : fd = s := Fin.ext (by omega)
      exact hok.isolated fd ⟨uid, hn⟩
    have hframe := hw.frame (frame_duplicate hout fun _ ↦ id) (hw.covers.duplicate hout) hno
      fun _ ↦ False.elim
    rcases hres : duplicateDescriptor w.table fd.val 0 with ⟨res, t⟩
    rw [hres] at hframe
    cases res with
    | error e =>
      exact hframe.pass rfl rfl (List.subset_cons_self _ _) hnone rfl fun c' hc' ↦ by cases hc'
    | ok fd2 =>
      exact hframe.pass rfl rfl (List.Subset.refl _) hnone rfl fun c' hc' ↦ by cases hc'
  · exact hw

theorem Sound.step (hw : Sound tty w) {a : Action} (hen : a.Enabled w) (hok : a.Orderly w) :
    Sound tty (a.run net w) := by
  cases a with
  | op o => exact hw.op hen.1 hen.2 hok.isolated
  | create n c =>
    simp only [Action.run]
    split
    · next hn =>
      refine hw.pass rfl rfl (List.subset_cons_self _ _) (by rw [hn]; rfl) rfl fun c' hc' ↦ ?_
      obtain rfl := Option.some.inj hc'
      exact ⟨List.mem_cons_self, hok.typed n c rfl⟩
    · exact hw
  | acquire n r => exact hw.acquire n r
  | storeUid n => exact hw.storeUid n
  | storeType n => exact hw.storeType n
  | second n r => exact hw.second n r hok

theorem fdGrab_fst {t : Table} {fd : ℤ} {i : Entry} :
    (fdGrab t fd).1 = some i ↔ ∃ s : Slot, fd = s.val ∧ t.fdmap s = some i := by
  have hout := fdGrab_outcome t fd
  generalize fdGrab t fd = res at hout
  cases hout with
  | refused h =>
    refine iff_of_false (by simp) ?_
    rintro ⟨s, hs, hi⟩
    cases h.symm.trans (openAt_eq_some.mpr ⟨hs, hi⟩)
  | grabbed s j h =>
    rw [Option.some.injEq]
    constructor
    · rintro rfl
      exact ⟨s, openAt_eq_some.mp h⟩
    · rintro ⟨s', hs, hi⟩
      exact (Prod.mk.inj (Option.some.inj (h.symm.trans (openAt_eq_some.mpr ⟨hs, hi⟩)))).2

theorem sound_init (stdin stdout stderr : ℤ) :
    Sound [stdin, stdout, stderr] (initSystem stdin stdout stderr) where
  covers := covers_initFd stdin stdout stderr
  pending n p h := by cases h
  own n n' p p' h := by cases h
  made n c h := by cases h
  built s i h _ := by
    obtain ⟨hlt, rfl⟩ : s.val < 3 ∧ s = i := by
      unfold initSystem initFd at h
      dsimp only at h
      split at h
      · next hlt => exact ⟨hlt, Option.some.inj h⟩
      · cases h
    left
    have hcases : s = 0 ∨ s = 1 ∨ s = 2 := by
      simp only [Fin.ext_iff]
      change s.val = 0 ∨ s.val = 1 ∨ s.val = 2
      omega
    rcases hcases with rfl | rfl | rfl
    · exact ⟨stdin, by simp, rfl⟩
    · exact ⟨stdout, by simp, rfl⟩
    · exact ⟨stderr, by simp, rfl⟩

end

/-- In every run whose steps are in order, the stores of each call reach the entry that it has
taken, and whatever can be grabbed has been filled, exactly if what the half-built entries hold is
an object by chance. -/
theorem half_built_iff {net : NetErrno → ℤ} {stdin stdout stderr : ℤ} {w : System}
    (h : ReflTransGen (SystemStep net fun w a ↦ a.Orderly w) (initSystem stdin stdout stderr) w) :
    StoresReach w ∧ (NoHalfBuilt [stdin, stdout, stderr] w ↔
      ∀ n p, w.Pending n p → Built [stdin, stdout, stderr] w.table ⟨p.uid, .FILE, 1⟩) := by
  have hw : Sound [stdin, stdout, stderr] w := by
    induction h with
    | refl => exact sound_init stdin stdout stderr
    | tail _ hs ih =>
      cases hs with
      | action a hen hok => exact ih.step hen hok
  refine ⟨fun n p hp ↦ ?_, fun hall n p hp ↦ ?_, fun hall fd i hi ↦ ?_⟩
  · obtain ⟨hslot, -, hstamp⟩ := hw.pending n p hp
    exact ⟨hslot, hstamp⟩
  · obtain ⟨hslot, hpool, -⟩ := hw.pending n p hp
    have hgrab := hall p.slot.val p.entry (fdGrab_fst.mpr ⟨p.slot, rfl, hslot⟩)
    rwa [hpool] at hgrab
  · obtain ⟨s, -, hs⟩ := fdGrab_fst.mp hi
    by_cases hpend : ∃ n p, w.Pending n p ∧ p.slot = s
    · obtain ⟨n, p, hp, rfl⟩ := hpend
      obtain ⟨hslot, hpool, -⟩ := hw.pending n p hp
      obtain rfl := Option.some.inj (hslot.symm.trans hs)
      rw [hpool]
      exact hall n p hp
    · exact hw.built s i hs fun n p hp heq ↦ hpend ⟨n, p, hp, heq⟩

def Action.thread : Action → Option ℕ
  | .op _ => none
  | .create n _ | .acquire n _ | .storeUid n | .storeType n | .second n _ => some n

theorem run_phase {net : NetErrno → ℤ} {w : System} {a : Action} {n : ℕ} (h : a.thread ≠ some n) :
    (a.run net w).phase n = w.phase n := by
  have hmove : ∀ {m : ℕ} {t : Table} {q : Phase}, n ≠ m → (w.move m t q).phase n = w.phase n :=
    fun hne ↦ Function.update_of_ne hne _ _
  cases a with
  | op o => rfl
  | create m c | storeUid m | storeType m =>
    have hne : n ≠ m := fun heq ↦ h (congrArg some heq.symm)
    simp only [Action.run]
    split
    · exact hmove hne
    · rfl
  | acquire m r =>
    have hne : n ≠ m := fun heq ↦ h (congrArg some heq.symm)
    simp only [Action.run]
    split
    · unfold System.acquire
      split
      · exact hmove hne
      · split
        · rfl
        · exact hmove (t := w.table) hne
    · rfl
  | second m r =>
    have hne : n ≠ m := fun heq ↦ h (congrArg some heq.symm)
    simp only [Action.run]
    split
    · split
      · exact hmove hne
      · exact hmove hne
    · rfl

def takenSocket : System :=
  (Action.acquire 0 0).run 0 ((Action.create 0 (.socket 5)).run 0 (initSystem 1 2 3))

def filledSocket : System := (Action.storeType 0).run 0 ((Action.storeUid 0).run 0 takenSocket)

theorem filledSocket_reachable :
    ReflTransGen (SystemStep 0 fun w a ↦ a.Orderly w) (initSystem 1 2 3) filledSocket := by
  have hstep : ∀ (w : System) (a : Action), a.Enabled w → (∀ s, ¬ a.Names w s) →
      (∀ n c, a = .create n c → c.Typed) → SystemStep 0 (fun w a ↦ a.Orderly w) w (a.run 0 w) :=
    fun w a hen hno htyped ↦ .action w a hen ⟨fun s hs ↦ absurd hs (hno s), htyped⟩
  have hcreate := hstep (initSystem 1 2 3) (.create 0 (.socket 5)) trivial (fun _ ↦ id) (by
    rintro n c ⟨⟩
    rfl)
  exact .tail (.tail (.tail (.single hcreate)
    (hstep _ (.acquire 0 0) trivial (fun _ ↦ id) (by simp)))
    (hstep _ (.storeUid 0) trivial (fun _ ↦ id) (by simp)))
    (hstep _ (.storeType 0) trivial (fun _ ↦ id) (by simp))

theorem filledSocket_pending (n : ℕ) : (filledSocket.phase n).pending = none := by
  by_cases hn : n = 0
  · subst hn
    decide +kernel
  · have hother : ∀ {w : System} {a : Action}, a.thread = some 0 →
        (a.run 0 w).phase n = w.phase n := by
      intro w a ha
      apply run_phase
      rw [ha]
      exact fun h ↦ hn (Option.some.inj h).symm
    rw [filledSocket, takenSocket, hother rfl, hother rfl, hother rfl, hother rfl]
    rfl

theorem half_built_filledSocket :
    StoresReach filledSocket ∧ NoHalfBuilt [1, 2, 3] filledSocket := by
  have h := half_built_iff filledSocket_reachable
  exact ⟨h.1, h.2.mpr fun n p hp ↦ by cases (filledSocket_pending n).symm.trans hp⟩

/-- Descriptor 3 can be grabbed before anything has been stored in its entry, and another thread can
close it before the stores. -/
theorem taken_descriptor_visible :
    ReflTransGen (SystemStep 0 fun _ _ ↦ True) (initSystem 1 2 3) takenSocket ∧
      ¬ NoHalfBuilt [1, 2, 3] takenSocket ∧
      ¬ StoresReach ((Action.op (.release 3 0)).run 0 takenSocket) := by
  refine ⟨?_, fun h ↦ ?_, fun h ↦ ?_⟩
  · exact .tail (.single (.action _ (.create 0 (.socket 5)) trivial trivial))
      (.action _ (.acquire 0 0) trivial trivial)
  · have hgrab : (fdGrab takenSocket.table 3).1 = some 3 := by decide +kernel
    have hentry : takenSocket.table.pool 3 = ⟨0, .FILE, 1⟩ := by decide +kernel
    have hcalls : takenSocket.table.calls = [.created (.socket 5)] := by decide +kernel
    have hbuilt := h 3 3 hgrab
    rw [hentry, Built, hcalls] at hbuilt
    rcases hbuilt with ⟨uid, -, huid⟩ | hmem
    · cases huid
    · cases List.mem_singleton.mp hmem
  · have hphase : takenSocket.phase 0 = .acquired (.socket 5) 3 3 1 := by decide +kernel
    have hpend : ((Action.op (.release 3 0)).run 0 takenSocket).Pending 0 ⟨3, 3, 1, 0⟩ :=
      congrArg Phase.pending hphase
    have hfree : ((Action.op (.release 3 0)).run 0 takenSocket).table.fdmap 3 = none := by
      decide +kernel
    cases hfree.symm.trans (h 0 _ hpend).1

end SceLibcPosix.Descriptor
