import SceLibcPosix.Descriptor.HalfBuilt
import SceLibcPosix.Descriptor.OpenFiles

namespace SceLibcPosix.Descriptor

open VitaError References Function

def KernelObject.Made : KernelObject → Prop
  | .stdio _ => False
  | _ => True

/-- There is a reference to the entry, from a slot or from a call. -/
def Used (t : Table) (g : Entry → ℕ) (i : Entry) : Prop := 0 < refs t.fdmap i + g i

/-- Entries in use keep their objects, and what is closed is not in use any more. -/
structure Spares (t : Table) (g : Entry → ℕ) (t' : Table) (g' : Entry → ℕ) : Prop where
  object : ∀ i, Used t' g' i → Used t g i ∧ (t'.pool i).object = (t.pool i).object
  calls : t'.calls = t.calls ∨ ∃ i r, t'.calls = .close (t.pool i).object r :: t.calls ∧
    Used t g i ∧ (0 ≤ r → ¬ Used t' g' i)

def System.Settled (w : System) (s : Slot) : Prop := ∀ n p, w.Pending n p → p.slot ≠ s

/-- Whom an object belongs to: an entry in use, or a call that has not filled its entry yet. -/
inductive System.Holds (w : System) : Entry ⊕ ℕ → KernelObject → Prop
  | entry {i : Entry} (hi : Used w.table w.grabs i) (hno : ∀ n p, w.Pending n p → p.entry ≠ i) :
    Holds w (.inl i) (w.table.pool i).object
  | call {n : ℕ} {c : Creation} (hn : (w.phase n).creation = some c) : Holds w (.inr n) c.object

/-- What belongs to somebody is there, and belongs to nobody else. -/
structure Sheltered (w : System) : Prop where
  live : ∀ x o, w.Holds x o → o.Made → alive w.table.calls o
  apart : ∀ x y o, w.Holds x o → w.Holds y o → o.Made → x = y

/-- The steps that no call in flight takes: those of `close`, `dup` and `dup2`, and of the calls
that create. -/
def Action.Apart : Action → Prop
  | .op (.release _ _) | .op (.duplicate _ _) | .op (.duplicate2 _ _ _) => True
  | .op _ => False
  | _ => True

/-- Beside what `Orderly` says, the kernel makes no object that there already is, and a pipe that
has one descriptor gets its second. -/
structure Action.Fits (w : System) (a : Action) : Prop extends a.Orderly w where
  fresh : ∀ n c, a = .create n c → ¬ alive w.table.calls c.object
  granted : ∀ n r uid fd, a = .second n r → w.phase n = .installed uid fd →
    ∃ s, (duplicateDescriptor w.table fd.val 0).1 = .ok s

theorem Action.fits_of_settled {w : System} {a : Action} (hno : ∀ s, a.Names w s → w.Settled s)
    (hcreate : ∀ n c, a ≠ .create n c) (hsecond : ∀ n r, a ≠ .second n r) : a.Fits w where
  isolated := hno
  typed n c h := absurd h (hcreate n c)
  fresh n c h := absurd h (hcreate n c)
  granted n r _ _ h := absurd h (hsecond n r)

section

variable {net : NetErrno → ℤ} {t t' t'' : Table} {g g' g'' : Entry → ℕ} {i j : Entry}
  {s s' : Slot} {fd r : ℤ}

theorem Used.mono (h : Used t' g' i) (hle : refs t'.fdmap i + g' i ≤ refs t.fdmap i + g i) :
    Used t g i := Nat.lt_of_lt_of_le h hle

theorem used_slot (h : t.fdmap s = some i) : Used t g i :=
  Nat.add_pos_left (refs_pos.mpr ⟨s, h⟩) _

theorem Spares.trans (h : Spares t g t' g') (h' : Spares t' g' t'' g'')
    (hcalls : t''.calls = t'.calls) : Spares t g t'' g'' where
  object i hi := by
    obtain ⟨hused, hobject⟩ := h'.object i hi
    obtain ⟨hused', hobject'⟩ := h.object i hused
    exact ⟨hused', hobject.trans hobject'⟩
  calls := by
    rw [hcalls]
    refine h.calls.imp_right fun ⟨i, r, hcall, hused, hgone⟩ ↦ ⟨i, r, hcall, hused, ?_⟩
    exact fun hr hi ↦ hgone hr (h'.object i hi).1

/-- References that go, or come from an entry in use, without a change of the objects. -/
theorem spares_of_le (hobject : ∀ i, (t'.pool i).object = (t.pool i).object)
    (hle : ∀ i, Used t' g' i → Used t g i) (hcalls : t'.calls = t.calls) : Spares t g t' g' :=
  ⟨fun i hi ↦ ⟨hle i hi, hobject i⟩, .inl hcalls⟩

theorem Spares.share (hs : t.fdmap s = some i) (hs' : t.fdmap s' = none) :
    Spares t g ((t.setSlot s' (some i)).addRef i 1) g := by
  refine spares_of_le (fun j ↦ object_addRef (t := t.setSlot s' (some i)) 1 i j) (fun j hj ↦ ?_) rfl
  by_cases hji : i = j
  · subst hji
    exact used_slot hs
  · refine hj.mono (Nat.add_le_add_right (Nat.le_of_eq ?_) _)
    have hset := refs_set hs' i j
    rw [if_neg hji, Nat.add_zero] at hset
    exact hset

theorem Spares.grab (hs : t.fdmap s = some i) :
    Spares t g (t.addRef i 1) (update g i (g i + 1)) := by
  refine spares_of_le (object_addRef 1 i) (fun j hj ↦ ?_) rfl
  by_cases hji : j = i
  · subst hji
    exact used_slot hs
  · unfold Used at hj
    rwa [update_of_ne hji] at hj

theorem Spares.drop (hc : Covers t g) (hg : 0 < g i) {res : ℤ × Table}
    (h : DropOutcome net t i r res) : Spares t g res.2 (update g i (g i - 1)) := by
  have hi : Used t g i := Nat.add_pos_right _ hg
  have hle : ∀ j, update g i (g i - 1) j ≤ g j := by
    intro j
    by_cases hji : j = i
    · subst hji
      rw [update_self]
      exact Nat.sub_le _ _
    · rw [update_of_ne hji]
  cases h with
  | shared href =>
    exact spares_of_le (object_addRef (-1) i)
      (fun j hj ↦ hj.mono (Nat.add_le_add_left (hle j) _)) rfl
  | failed ret href hr =>
    refine ⟨fun j hj ↦ ⟨hj.mono (Nat.add_le_add_left (hle j) _), rfl⟩, .inr ⟨i, r, rfl, hi, ?_⟩⟩
    exact fun hr' ↦ absurd hr' (not_le.mpr hr)
  | closed href hr =>
    have hcount := hc.count i
    have hgone : ¬ Used ((t.call (.close (t.pool i).object r)).setEntry i {})
        (update g i (g i - 1)) i := by
      unfold Used
      rw [update_self, Table.setEntry_fdmap, Table.call_fdmap]
      omega
    refine ⟨fun j hj ↦ ⟨hj.mono (Nat.add_le_add_left (hle j) _), ?_⟩, .inr ⟨i, r, rfl, hi, ?_⟩⟩
    · have hji : j ≠ i := by
        rintro rfl
        exact hgone hj
      rw [Table.setEntry_pool, update_of_ne hji]
      rfl
    · exact fun _ ↦ hgone

theorem Spares.release (hc : Covers t g) {res : ℤ × Table} (h : ReleaseOutcome net t fd r res) :
    Spares t g res.2 g := by
  cases h with
  | refused => exact spares_of_le (fun _ ↦ rfl) (fun _ h ↦ h) rfl
  | failed s i h href hr =>
    refine ⟨fun j hj ↦ ⟨hj, rfl⟩, .inr ⟨i, r, rfl, used_slot (openAt_eq_some.mp h).2, ?_⟩⟩
    exact fun hr' ↦ absurd hr' (not_le.mpr hr)
  | lost s i h href hr =>
    have hslot := (openAt_eq_some.mp h).2
    refine ⟨fun j hj ↦ ⟨hj.mono (Nat.add_le_add_right ?_ _), rfl⟩,
      .inr ⟨i, r, rfl, used_slot hslot, fun hr' ↦ absurd hr' (not_le.mpr hr)⟩⟩
    exact Nat.le.intro (refs_clear hslot j)
  | shared s i h href =>
    have hslot := (openAt_eq_some.mp h).2
    refine spares_of_le (object_addRef (-1) i) (fun j hj ↦ ?_) rfl
    exact hj.mono (Nat.add_le_add_right (Nat.le.intro (refs_clear hslot j)) _)
  | closed s i h href hr =>
    have hslot := (openAt_eq_some.mp h).2
    have hcount := hc.count i
    have hclear := refs_clear hslot i
    rw [if_pos rfl] at hclear
    have hgone : ¬ Used (((t.call (.close (t.pool i).object r)).setEntry i {}).setSlot s none)
        g i := by
      unfold Used
      rw [Table.setSlot_fdmap, Table.setEntry_fdmap, Table.call_fdmap]
      omega
    refine ⟨fun j hj ↦ ⟨hj.mono (Nat.add_le_add_right (Nat.le.intro (refs_clear hslot j)) _), ?_⟩,
      .inr ⟨i, r, rfl, used_slot hslot, fun _ ↦ hgone⟩⟩
    have hji : j ≠ i := by
      rintro rfl
      exact hgone hj
    rw [Table.setSlot_pool, Table.setEntry_pool, update_of_ne hji]
    rfl

theorem Spares.duplicate {minfd : ℤ} {res : Except (Option ℤ) Slot × Table}
    (h : DuplicateOutcome t fd minfd res) : Spares t g res.2 g := by
  cases h with
  | refused => exact spares_of_le (fun _ ↦ rfl) (fun _ h ↦ h) rfl
  | full => exact spares_of_le (fun _ ↦ rfl) (fun _ h ↦ h) rfl
  | shared s i h s' hs' => exact .share (openAt_eq_some.mp h).2 hs'.free

theorem Spares.duplicate2 (hc : Covers t g) {newfd : Slot} {res : Option Slot × Table}
    (h : Duplicate2Outcome net t fd newfd r res) : Spares t g res.2 g := by
  cases h with
  | refused => exact spares_of_le (fun _ ↦ rfl) (fun _ h ↦ h) rfl
  | same => exact spares_of_le (fun _ ↦ rfl) (fun _ h ↦ h) rfl
  | busy s i h hs res hres => exact .release hc hres
  | moved s i h hs res hres hfree =>
    obtain ⟨hfd, hi⟩ := openAt_eq_some.mp h
    have hne : (s.val : ℤ) ≠ newfd.val := fun h ↦ hs (Fin.ext (by omega))
    exact (Spares.release hc hres).trans
      (.share ((releaseDescriptor_fdmap hres hne).trans hi) hfree) rfl

end

section

variable {net : NetErrno → ℤ} {tty : List ℤ} {w w' : System} {t' : Table} {g' : Entry → ℕ}
  {i : Entry} {s : Slot} {n : ℕ} {q : Phase} {x y : Entry ⊕ ℕ} {o : KernelObject}

theorem Creation.made (c : Creation) : c.object.Made := by
  cases c with
  | open' dir oDirectory handle =>
    change (if dir && oDirectory then KernelObject.directory handle else .file handle).Made
    split <;> trivial
  | socket | accept | pipe => trivial

theorem Sound.not_pending (hw : Sound tty w) (hg : 0 < w.grabs i) :
    ∀ n p, w.Pending n p → p.entry ≠ i := by
  rintro n p hp rfl
  obtain ⟨hslot, hpool, -⟩ := hw.pending n p hp
  have hpos := hw.covers.slot_pos hslot
  rw [hpool] at hpos
  dsimp only at hpos
  omega

theorem Sound.settled (hw : Sound tty w) (hs : w.table.fdmap s = some i) (hno : w.Settled s) :
    ∀ n p, w.Pending n p → p.entry ≠ i := by
  rintro n p hp rfl
  exact hno n p hp (hw.slot_unique hp hs).symm

theorem Sheltered.moved (h : Sheltered w) (f : Entry ⊕ ℕ → Entry ⊕ ℕ)
    (hf : ∀ x o, w'.Holds x o → w.Holds (f x) o)
    (hinj : ∀ x y o, w'.Holds x o → w'.Holds y o → f x = f y → x = y)
    (hlive : ∀ x o, w'.Holds x o → o.Made → alive w.table.calls o → alive w'.table.calls o) :
    Sheltered w' where
  live x o hx hmade := hlive x o hx hmade (h.live _ o (hf x o hx) hmade)
  apart x y o hx hy hmade := hinj x y o hx hy (h.apart _ _ o (hf x o hx) (hf y o hy) hmade)

theorem Sheltered.kept (h : Sheltered w) (hf : ∀ x o, w'.Holds x o → w.Holds x o)
    (hcalls : w'.table.calls = w.table.calls ∨ ∃ x o r,
      w'.table.calls = .close o r :: w.table.calls ∧
        (0 ≤ r → o.Made → w.Holds x o ∧ ∀ o', ¬ w'.Holds x o')) :
    Sheltered w' := by
  refine h.moved id hf (fun _ _ _ _ _ heq ↦ heq) fun y o' hy hmade halive ↦ ?_
  obtain hcalls | ⟨x, o, r, hcalls, hgone⟩ := hcalls
  · rwa [hcalls]
  · rw [hcalls]
    refine ⟨halive, fun ⟨heq, hr⟩ ↦ ?_⟩
    subst heq
    obtain ⟨hx, hnot⟩ := hgone hr hmade
    obtain rfl := h.apart x y o' hx (hf y o' hy) hmade
    exact hnot o' hy

theorem Sheltered.spares (h : Sheltered w) (hs : Spares w.table w.grabs t' g')
    (hw' : Sound tty { w with table := t', grabs := g' }) :
    Sheltered { w with table := t', grabs := g' } := by
  refine h.kept (fun x o hx ↦ ?_) ?_
  · cases hx with
    | entry hi hno =>
      obtain ⟨hused, hobject⟩ := hs.object _ hi
      dsimp only
      rw [hobject]
      exact .entry hused hno
    | call hn => exact .call hn
  · obtain hcalls | ⟨i, r, hcalls, hi, hgone⟩ := hs.calls
    · exact .inl hcalls
    · refine .inr ⟨.inl i, _, r, hcalls, fun hr _ ↦ ⟨.entry hi ?_, fun o' ho' ↦ ?_⟩⟩
      · -- a half-built entry stays in use
        rintro n p hp rfl
        exact hgone hr (used_slot (hw'.pending n p hp).1)
      · cases ho' with
        | entry hi' => exact hgone hr hi'

theorem holds_move (hfdmap : t'.fdmap = w.table.fdmap) (hx : (w.move n t' q).Holds x o) :
    (∃ i, x = .inl i ∧ o = (t'.pool i).object ∧ Used w.table w.grabs i ∧
      ∀ m p, (w.move n t' q).Pending m p → p.entry ≠ i) ∨
    (∃ m c, x = .inr m ∧ o = c.object ∧
      (m = n ∧ q.creation = some c ∨ m ≠ n ∧ (w.phase m).creation = some c)) := by
  cases hx with
  | @entry i hi hno =>
    refine .inl ⟨i, rfl, rfl, ?_, hno⟩
    have hused : 0 < refs t'.fdmap i + w.grabs i := hi
    rwa [hfdmap] at hused
  | @call m c hn => exact .inr ⟨m, c, rfl, rfl, creation_move hn⟩

theorem holds_pass (hfdmap : t'.fdmap = w.table.fdmap) (hpool : t'.pool = w.table.pool)
    (hold : (w.phase n).pending = none) (hnew : q.pending = none)
    (hx : (w.move n t' q).Holds x o) :
    w.Holds x o ∧ x ≠ .inr n ∨ ∃ c, x = .inr n ∧ q.creation = some c ∧ o = c.object := by
  obtain ⟨i, rfl, rfl, hi, hno⟩ | ⟨m, c, rfl, rfl, ⟨rfl, hc⟩ | ⟨hne, hc⟩⟩ := holds_move hfdmap hx
  · refine .inl ⟨?_, Sum.inl_ne_inr⟩
    rw [hpool]
    exact .entry hi fun m p hp ↦ hno m p ((pending_pass hold hnew m p).mpr hp)
  · exact .inr ⟨c, rfl, hc, rfl⟩
  · exact .inl ⟨.call hc, fun heq ↦ hne (Sum.inr.inj heq)⟩

theorem Sheltered.create (h : Sheltered w) {c : Creation} (hn : w.phase n = .idle)
    (hnew : ¬ alive w.table.calls c.object) :
    Sheltered (w.move n (w.table.call (.created c.object)) (.created c)) := by
  have hcases : ∀ x o, (w.move n (w.table.call (.created c.object)) (.created c)).Holds x o →
      w.Holds x o ∨ x = .inr n ∧ o = c.object := by
    intro x o hx
    have hfdmap : (w.table.call (.created c.object)).fdmap = w.table.fdmap := rfl
    have hpass := holds_pass hfdmap rfl (by rw [hn]; rfl) rfl hx
    obtain ⟨hx, -⟩ | ⟨c', rfl, hc, rfl⟩ := hpass
    · exact .inl hx
    · cases hc
      exact .inr ⟨rfl, rfl⟩
  refine ⟨fun x o hx hmade ↦ ?_, fun x y o hx hy hmade ↦ ?_⟩
  · rcases hcases x o hx with hx | ⟨-, rfl⟩
    · exact .inr (h.live x o hx hmade)
    · exact .inl rfl
  · rcases hcases x o hx with hx | ⟨rfl, rfl⟩
    · rcases hcases y o hy with hy | ⟨-, rfl⟩
      · exact h.apart x y o hx hy hmade
      · exact absurd (h.live x _ hx hmade) hnew
    · rcases hcases y _ hy with hy | ⟨rfl, -⟩
      · exact absurd (h.live y _ hy hmade) hnew
      · rfl

theorem Sheltered.undone (h : Sheltered w) {c : Creation} (hn : w.phase n = .created c)
    (htyped : c.Typed) (r : ℤ) : Sheltered (w.move n (c.undo r w.table) .idle) := by
  obtain ⟨hfdmap, hpool, -⟩ := c.undo_spec r w.table
  have hpass : ∀ x o, (w.move n (c.undo r w.table) .idle).Holds x o →
      w.Holds x o ∧ x ≠ .inr n := by
    intro x o hx
    obtain hx | ⟨c', -, hc, -⟩ := holds_pass hfdmap hpool (by rw [hn]; rfl) rfl hx
    · exact hx
    · cases hc
  refine h.kept (fun x o hx ↦ (hpass x o hx).1) ?_
  have hclosed : ∀ o, o = c.object → 0 ≤ r → o.Made → w.Holds (.inr n) o ∧
      ∀ o', ¬ (w.move n (c.undo r w.table) .idle).Holds (.inr n) o' := by
    rintro o rfl - -
    exact ⟨.call (by rw [hn]; rfl), fun o' hx ↦ (hpass _ o' hx).2 rfl⟩
  cases c with
  | open' dir oDirectory handle =>
    refine .inr ⟨.inr n, _, r, rfl, hclosed _ ?_⟩
    rw [← htyped]
    cases dir <;> rfl
  | pipe uid => exact .inr ⟨.inr n, _, r, rfl, hclosed _ rfl⟩
  | socket | accept => exact .inl rfl

theorem Sheltered.taken (h : Sheltered w) {c : Creation} (hn : w.phase n = .created c)
    (hs : w.table.fdmap s = none) (stamp : Entry → ℕ) (k : ℕ) :
    Sheltered
      { w.move n ((w.table.setSlot s (some i)).setEntry i { w.table.pool i with refCount := 1 })
          (.acquired c s i k) with stamp := stamp } := by
  refine h.kept (fun x o hx ↦ ?_) (.inl rfl)
  cases hx with
  | @entry j hj hno =>
    have hji : j ≠ i :=
      (hno n ⟨s, i, k, 0⟩ (pending_move (t := w.table).mpr (.inl ⟨rfl, rfl⟩))).symm
    have hentry : update w.table.pool i { w.table.pool i with refCount := 1 } j =
        w.table.pool j := update_of_ne hji _ _
    have hused : Used w.table w.grabs j := by
      have hset := refs_set hs i j
      rw [if_neg hji.symm, Nat.add_zero] at hset
      exact Nat.lt_of_lt_of_eq hj (congrArg (· + w.grabs j) hset)
    change w.Holds _ (update w.table.pool i _ j).object
    rw [hentry]
    refine .entry hused fun m p hp ↦ hno m p (pending_move (t := w.table).mpr (.inr ⟨?_, hp⟩))
    rintro rfl
    rw [System.Pending, hn] at hp
    cases hp
  | @call m c' hm =>
    obtain ⟨rfl, hc⟩ | ⟨-, hc⟩ := creation_move (t := w.table) hm
    · cases hc
      exact .call (by rw [hn]; rfl)
    · exact .call hc

/-- A store of thread `n` to its own entry leaves the others as half-built as they were. -/
theorem pending_other {p : Pending} (hp : w.Pending n p) (hne : i ≠ p.entry)
    (hno : ∀ m p', (w.move n t' q).Pending m p' → p'.entry ≠ i) :
    ∀ m p', w.Pending m p' → p'.entry ≠ i := by
  intro m p' hp'
  by_cases hm : m = n
  · subst hm
    obtain rfl := Option.some.inj (hp.symm.trans hp')
    exact hne.symm
  · exact hno m p' (pending_move.mpr (.inr ⟨hm, hp'⟩))

theorem Sheltered.storeUid (h : Sheltered w) {p : Pending} (hp : w.Pending n p)
    {d : DescriptorTranslation} {u : ℤ} (hq : q.pending = some { p with uid := u })
    (hcreation : q.creation = (w.phase n).creation) :
    Sheltered (w.move n (w.table.setEntry p.entry d) q) := by
  refine h.kept (fun x o hx ↦ ?_) (.inl rfl)
  have hfdmap : (w.table.setEntry p.entry d).fdmap = w.table.fdmap := rfl
  obtain ⟨i, rfl, rfl, hi, hno⟩ | ⟨m, c, rfl, rfl, ⟨rfl, hc⟩ | ⟨-, hc⟩⟩ := holds_move hfdmap hx
  · have hne : i ≠ p.entry := (hno n _ (pending_move.mpr (.inl ⟨rfl, hq⟩))).symm
    rw [Table.setEntry_pool, update_of_ne hne]
    exact .entry hi (pending_other hp hne hno)
  · exact .call (hcreation ▸ hc)
  · exact .call hc

/-- With the second store the entry takes over from the call. -/
theorem Sheltered.storeType (h : Sheltered w) {p : Pending} (hp : w.Pending n p)
    {d : DescriptorTranslation} {c : Creation} (hn : (w.phase n).creation = some c)
    (hd : d.object = c.object) (hcreation : q.creation = none) :
    Sheltered (w.move n (w.table.setEntry p.entry d) q) := by
  have hcall : ∀ o, ¬ (w.move n (w.table.setEntry p.entry d) q).Holds (.inr n) o := by
    intro o hx
    cases hx with
    | call hm =>
      obtain ⟨-, hc⟩ | ⟨hne, -⟩ := creation_move hm
      · cases hcreation.symm.trans hc
      · exact hne rfl
  refine h.moved (fun x ↦ if x = .inl p.entry then .inr n else x) (fun x o hx ↦ ?_)
    (fun x y o hx hy heq ↦ ?_) fun _ _ _ _ halive ↦ halive
  · have hfdmap : (w.table.setEntry p.entry d).fdmap = w.table.fdmap := rfl
    obtain ⟨i, rfl, rfl, hi, hno⟩ | ⟨m, c', rfl, rfl, ⟨rfl, hc⟩ | ⟨-, hc⟩⟩ := holds_move hfdmap hx
    · by_cases hip : i = p.entry
      · subst hip
        rw [if_pos rfl, Table.setEntry_pool, update_self, hd]
        exact .call hn
      · rw [if_neg fun heq ↦ hip (Sum.inl.inj heq), Table.setEntry_pool, update_of_ne hip]
        exact .entry hi (pending_other hp hip hno)
    · cases hcreation.symm.trans hc
    · exact .call hc
  · split at heq
    · next hxp =>
      split at heq
      · next hyp => exact hxp.trans hyp.symm
      · exact absurd (heq ▸ hy) (hcall o)
    · split at heq
      · exact absurd (heq ▸ hx) (hcall o)
      · exact heq

theorem Sheltered.op (h : Sheltered w) (hw : Sound tty w) {o : Op} (ha : (Action.op o).Apart)
    (hno : ∀ s, o.Names s → w.Settled s) : Sheltered { w with toWorld := o.run net w.toWorld } := by
  have hsound : o.Shared → o.Matched w.toWorld →
      Sound tty { w with toWorld := o.run net w.toWorld } := fun hs hm ↦ hw.op hs hm hno
  cases o with
  | release fd r =>
    have hout := releaseDescriptor_outcome net w.table fd r
    exact h.spares (.release hw.covers hout) (hsound trivial trivial)
  | duplicate fd minfd =>
    have hout := duplicateDescriptor_outcome w.table fd minfd
    exact h.spares (.duplicate hout) (hsound trivial trivial)
  | duplicate2 oldfd newfd r =>
    have hout := duplicateDescriptor2_outcome net w.table oldfd newfd r
    exact h.spares (.duplicate2 hw.covers hout) (hsound trivial trivial)
  | acquire | fill | grab | drop => exact ha.elim

theorem Sheltered.second (h : Sheltered w) (hw : Sound tty w) {r : ℤ}
    (hok : (Action.second n r).Fits w) : Sheltered ((Action.second n r).run net w) := by
  simp only [Action.run]
  split
  · next uid fd hn =>
    obtain ⟨s, hs⟩ := hok.granted n r uid fd rfl hn
    have hout := duplicateDescriptor_outcome w.table fd.val 0
    have hno : ∀ s : Slot, (fd.val : ℤ) = s.val → w.Settled s := by
      intro s hs
      obtain rfl : fd = s := Fin.ext (by omega)
      exact hok.isolated fd ⟨uid, hn⟩
    have hsound := hw.frame (frame_duplicate hout fun _ ↦ id) (hw.covers.duplicate hout) hno
      fun _ ↦ False.elim
    have hdup := h.spares (.duplicate hout) hsound
    rcases hres : duplicateDescriptor w.table fd.val 0 with ⟨res, t⟩
    rw [hres] at hdup hs
    subst hs
    refine hdup.kept (fun x o hx ↦ ?_) (.inl rfl)
    obtain ⟨hx, -⟩ | ⟨c, -, hc, -⟩ :=
      holds_pass (w := { w with table := t }) rfl rfl (by rw [hn]; rfl) rfl hx
    · exact hx
    · cases hc
  · exact h

theorem Sheltered.run (h : Sheltered w) (hw : Sound tty w) {a : Action} (ha : a.Apart)
    (hok : a.Fits w) : Sheltered (a.run net w) := by
  cases a with
  | op op => exact h.op hw ha hok.isolated
  | create n c =>
    simp only [Action.run]
    split
    · next hn => exact h.create hn (hok.fresh n c rfl)
    · exact h
  | acquire n r =>
    simp only [Action.run]
    split
    · next c hn =>
      have hout := acquireDescriptor_outcome w.table
      generalize acquireDescriptor w.table = res at hout ⊢
      cases hout with
      | full => exact h.undone hn (hw.made n c (by rw [hn]; rfl)).2 r
      | taken s i hs hi =>
        have hself : ((w.table.setSlot s (some i)).setEntry i
            { w.table.pool i with refCount := 1 }).fdmap s = some i := update_self _ _ _
        simp only [System.acquire, hself]
        exact h.taken hn hs.free _ _
    · exact h
  | storeUid n =>
    simp only [Action.run]
    split
    · next c fd i stamp hn =>
      have hp : w.Pending n ⟨fd, i, stamp, 0⟩ := by rw [System.Pending, hn]; rfl
      have hslot : w.table.fdmap fd = some i := (hw.pending n _ hp).1
      rw [Table.storeUid, hslot]
      exact h.storeUid hp rfl (by rw [hn]; rfl)
    · exact h
  | storeType n =>
    simp only [Action.run]
    split
    · next c fd i stamp hn =>
      have hp : w.Pending n ⟨fd, i, stamp, c.uid⟩ := by rw [System.Pending, hn]; rfl
      have hslot : w.table.fdmap fd = some i := (hw.pending n _ hp).1
      have hpool : w.table.pool i = ⟨c.uid, .FILE, 1⟩ := (hw.pending n _ hp).2.1
      have hcreation : (w.phase n).creation = some c := by rw [hn]; rfl
      have htyped := (hw.made n c hcreation).2
      rw [Table.storeType, hslot]
      dsimp only
      rw [hpool]
      exact h.storeType hp hcreation htyped (by cases c <;> rfl)
    · exact h
  | second n r => exact h.second hw hok

theorem Action.run_grabs {a : Action} (ha : a.Apart) : (a.run net w).grabs = w.grabs := by
  cases a with
  | op o =>
    cases o with
    | release | duplicate | duplicate2 => rfl
    | acquire | fill | grab | drop => exact ha.elim
  | acquire n r =>
    simp only [Action.run]
    split
    · unfold System.acquire
      split
      · rfl
      · split <;> rfl
    · rfl
  | create | storeUid | storeType =>
    simp only [Action.run]
    split <;> rfl
  | second n r =>
    simp only [Action.run]
    split
    · split <;> rfl
    · rfl

/-- A half-built entry is none that a call has grabbed. -/
theorem Sound.stored_other (hw : Sound tty w) (hg : 0 < w.grabs i) {p : Pending}
    (hp : w.Pending n p) (d : DescriptorTranslation) : w.table.fdmap p.slot = some p.entry ∧
      ((w.table.setEntry p.entry d).pool i).object = (w.table.pool i).object := by
  have hne : i ≠ p.entry := (hw.not_pending hg n p hp).symm
  exact ⟨(hw.pending n p hp).1, congrArg DescriptorTranslation.object (update_of_ne hne _ _)⟩

theorem Sound.grabbed (hw : Sound tty w) {a : Action} (ha : a.Apart) (hg : 0 < w.grabs i) :
    ((a.run net w).table.pool i).object = (w.table.pool i).object := by
  have hused : ∀ t, Used t w.grabs i := fun _ ↦ Nat.add_pos_right _ hg
  cases a with
  | op o =>
    cases o with
    | release fd r =>
      exact ((Spares.release hw.covers (releaseDescriptor_outcome net w.table fd r)).object i
        (hused _)).2
    | duplicate fd minfd =>
      exact ((Spares.duplicate (duplicateDescriptor_outcome w.table fd minfd)).object i
        (hused _)).2
    | duplicate2 oldfd newfd r =>
      exact ((Spares.duplicate2 hw.covers
        (duplicateDescriptor2_outcome net w.table oldfd newfd r)).object i (hused _)).2
    | acquire | fill | grab | drop => exact ha.elim
  | create n c =>
    simp only [Action.run]
    split <;> rfl
  | acquire n r =>
    simp only [Action.run]
    split
    · next c hn =>
      have hout := acquireDescriptor_outcome w.table
      generalize acquireDescriptor w.table = res at hout ⊢
      cases hout with
      | full =>
        obtain ⟨-, hpool, -⟩ := c.undo_spec r w.table
        exact congrArg (fun pool : Entry → _ ↦ (pool i).object) hpool
      | taken s j hs hj =>
        have hself : ((w.table.setSlot s (some j)).setEntry j
            { w.table.pool j with refCount := 1 }).fdmap s = some j := update_self _ _ _
        have hij : i ≠ j := by
          rintro rfl
          have hcount := hw.covers.count i
          omega
        simp only [System.acquire, hself]
        exact congrArg DescriptorTranslation.object (update_of_ne hij _ _)
    · rfl
  | storeUid n =>
    simp only [Action.run]
    split
    · next c fd j stamp hn =>
      have hp : w.Pending n ⟨fd, j, stamp, 0⟩ := by rw [System.Pending, hn]; rfl
      obtain ⟨hslot, hobject⟩ := hw.stored_other hg hp { w.table.pool j with sceUid := c.uid }
      rw [Table.storeUid, hslot]
      exact hobject
    · rfl
  | storeType n =>
    simp only [Action.run]
    split
    · next c fd j stamp hn =>
      have hp : w.Pending n ⟨fd, j, stamp, c.uid⟩ := by rw [System.Pending, hn]; rfl
      obtain ⟨hslot, hobject⟩ := hw.stored_other hg hp { w.table.pool j with type := c.type }
      rw [Table.storeType, hslot]
      exact hobject
    · rfl
  | second n r =>
    simp only [Action.run]
    split
    · next uid fd hn =>
      have hout := duplicateDescriptor_outcome w.table fd.val 0
      have hobject := ((Spares.duplicate (g := w.grabs) hout).object i (hused _)).2
      split
      · next heq =>
        rw [heq] at hobject
        exact hobject
      · next heq =>
        rw [heq] at hobject
        exact hobject
    · rfl

end

end SceLibcPosix.Descriptor
