import SceLibcPosix.Locale.Directives

namespace SceLibcPosix.Locale

open Errno Loops Function

def Item.text (render : ℕ → ℤ → ℤ → List Char) (k : ℕ) : Item → List Char
  | literal c => [c]
  | directive _ w rp => render k w rp
  | cut => []

def Item.args (k : ℕ) : Item → ℕ
  | literal _ => k
  | _ => k + 1

def Item.IsDirective (i : Item) : Prop := ∃ complete w rp, i = directive complete w rp

def Item.Complete (i : Item) : Prop := i ≠ cut ∧ ∀ w rp, i ≠ directive false w rp

/-- The full output for these pieces. -/
def output (render : ℕ → ℤ → ℤ → List Char) : ℕ → List Item → List Char
  | _, [] => []
  | k, i :: is => i.text render k ++ output render (i.args k) is

/-- The first piece with which the output comes to `n` characters. -/
def reaching (render : ℕ → ℤ → ℤ → List Char) : ℕ → ℕ → List Item → Option Item
  | _, _, [] => none
  | n, k, i :: is =>
    if n ≤ (i.text render k).length then some i
    else reaching render (n - (i.text render k).length) (i.args k) is

/-- The condition under which the pieces are put out as they should be to `bytes`, from `s` on,
where there are `n` places left. -/
def WellEnded (render : ℕ → ℤ → ℤ → List Char) (bytes : ℕ → Char) (s n k : ℕ)
    (is : List Item) : Prop :=
  0 < n ∧ ((∃ i, reaching render n k is = some i ∧ i.IsDirective) ∨
    reaching render n k is = none ∧ (∀ i ∈ is, i.Complete) ∧
      ((∃ i ∈ is.getLast?, i.IsDirective) ∨ bytes (s + (output render k is).length) = NUL))

/-- `vstrfmon_l` comes to an end, it reads nothing behind the null character of the format, which is
`text` with that character behind it, and stores nothing behind the `n` places of the buffer. It
puts out the whole text with a null character behind it, or fails because they do not fit. -/
def StaysWithin (render : ℕ → ℤ → ℤ → List Char) (n : ℕ) (text junk : List Char)
    (bytes : ℕ → Char) : Prop :=
  ∃ r, Returns (vstrfmonL render n (text ++ NUL :: junk) bytes) r ∧
    (∀ i ∈ r.last.fmt.reads, i ≤ text.length) ∧ (∀ i, r.last.buf.stored i → i < n) ∧
    (n ≤ (output render 0 (items text)).length ∧ r.ret = -1 ∧ r.errno = some E2BIG ∨
      ∃ l, l < n ∧ l = (output render 0 (items text)).length ∧ r.ret = l ∧
        r.last.buf.bytes l = NUL ∧
        ∀ i, i < l → (output render 0 (items text))[i]? = some (r.last.buf.bytes i))

/-- A run has stayed within the format, whose null character is at `L`, and within the buffer, and
it has put out the whole text, or it has failed because the text does not fit. -/
structure State.Good (L n : ℕ) (full : List Char) (st : State) : Prop where
  reads : ∀ i ∈ st.fmt.reads, i ≤ L
  stored : ∀ i, st.buf.stored i → i < n
  ended : n ≤ full.length ∧ st.failed = true ∨
    full.length < n ∧ st.failed = false ∧ st.s = full.length ∧ st.buf.bytes full.length = NUL ∧
      ∀ i, i < full.length → full[i]? = some (st.buf.bytes i)

def State.converted (st : State) (render : ℕ → ℤ → ℤ → List Char) : State :=
  let d := st.fmt.read.next.read.directive
  { st with
    fmt := d.2.2.read.next
    args := st.args + 1
    buf := st.buf.snprintf st.s st.n (render st.args d.1 d.2.1) }

def State.number (st : State) (render : ℕ → ℤ → ℤ → List Char) : List Char :=
  let d := st.fmt.read.next.read.directive
  render st.args d.1 d.2.1

inductive TurnCase (render : ℕ → ℤ → ℤ → List Char) (st : State) : Turn State → Prop
  | full (hn : st.n = 0) : TurnCase render st (.stop st)
  | finish (hn : st.n ≠ 0) (h : st.fmt.char = NUL) :
    TurnCase render st (.stop { st with fmt := st.fmt.read })
  | literal (hn : st.n ≠ 0) (h : st.fmt.char ≠ NUL) (hx : st.fmt.char ≠ '%') :
    TurnCase render st (.next ({ st with fmt := st.fmt.read } : State).literal)
  | percent (hn : st.n ≠ 0) (h : st.fmt.char = '%') (hx : st.fmt.next.char = '%') :
    TurnCase render st (.next ({ st with fmt := st.fmt.read.next.read } : State).literal)
  | failure (hn : st.n ≠ 0) (h : st.fmt.char = '%') (hx : st.fmt.next.char ≠ '%')
    (hlen : st.n ≤ (st.number render).length) :
    TurnCase render st (.stop { st.converted render with failed := true })
  | converted (hn : st.n ≠ 0) (h : st.fmt.char = '%') (hx : st.fmt.next.char ≠ '%')
    (hlen : (st.number render).length < st.n) :
    TurnCase render st (.next { st.converted render with
      s := st.s + (st.number render).length
      n := st.n - (st.number render).length })

section

variable {L : ℕ} {junk t t' : List Char} {c c' : Cursor} {x : Char} {w rp : ℤ}
  {render : ℕ → ℤ → ℤ → List Char} {bytes bytes' : ℕ → Char} {s n k : ℕ} {i : Item}
  {is : List Item} {st st' : State} {out done : List Char} {b : Buffer}

theorem stored_write (b : Buffer) (s : ℕ) (out : List Char) (j : ℕ) :
    (b.write s out).stored j = (b.stored j || decide (s ≤ j ∧ j < s + out.length)) := by
  induction out generalizing b s with
  | nil =>
    have hno : ¬ (s ≤ j ∧ j < s + ([] : List Char).length) := fun h ↦ Nat.not_lt.mpr h.1 h.2
    rw [decide_eq_false hno, Bool.or_false]
    rfl
  | cons c out ih =>
    rw [Buffer.write, ih, Buffer.store]
    by_cases hj : j = s
    · subst hj
      simp
    · simp only [update_of_ne hj, List.length_cons]
      congr 2
      rw [eq_iff_iff]
      omega

theorem bytes_write_before (b : Buffer) (out : List Char) {j : ℕ} (hj : j < s) :
    (b.write s out).bytes j = b.bytes j := by
  induction out generalizing b s with
  | nil => rfl
  | cons c out ih =>
    rw [Buffer.write, ih _ (Nat.lt_succ_of_lt hj), Buffer.store]
    exact update_of_ne (Nat.ne_of_lt hj) _ _

theorem bytes_write_behind (b : Buffer) {j : ℕ} (hj : s + out.length ≤ j) :
    (b.write s out).bytes j = b.bytes j := by
  induction out generalizing b s with
  | nil => rfl
  | cons c out ih =>
    rw [List.length_cons] at hj
    rw [Buffer.write, ih _ (by omega), Buffer.store]
    exact update_of_ne (by omega) _ _

theorem bytes_write (out : List Char) (b : Buffer) {j : ℕ} (hj : j < out.length) :
    out[j]? = some ((b.write s out).bytes (s + j)) := by
  induction out generalizing b s j with
  | nil => cases hj
  | cons c out ih =>
    cases j with
    | zero =>
      have h := bytes_write_before (b.store s c) out (by omega : s < s + 1)
      rw [Nat.add_zero s, Buffer.write, h, Buffer.store]
      simp
    | succ j =>
      have h := ih (s := s + 1) (b.store s c) (Nat.lt_of_succ_lt_succ hj)
      rw [Nat.add_right_comm] at h
      exact h

theorem snprintf_of_lt (b : Buffer) (s : ℕ) (h : out.length < n) :
    b.snprintf s n out = b.write s (out ++ [NUL]) := by
  rw [Buffer.snprintf, if_neg (by omega), List.take_of_length_le (by omega)]

theorem stored_snprintf {j : ℕ} (h : (b.snprintf s n out).stored j) :
    b.stored j ∨ s ≤ j ∧ j < s + n := by
  unfold Buffer.snprintf at h
  split at h
  · exact .inl h
  · rw [stored_write, Bool.or_eq_true, decide_eq_true_eq, List.length_append, List.length_take,
      List.length_singleton] at h
    exact h.imp_right fun h ↦ ⟨h.1, by omega⟩

@[simp] theorem isDirective_directive (complete : Bool) (w rp : ℤ) :
    (Item.directive complete w rp).IsDirective := ⟨complete, w, rp, rfl⟩

@[simp] theorem not_isDirective_literal (x : Char) : ¬ (Item.literal x).IsDirective := by
  simp [Item.IsDirective]

theorem length_output_append (render : ℕ → ℤ → ℤ → List Char) (is : List Item) (i : Item) (k : ℕ) :
    ∃ k', output render k (is ++ [i]) = output render k is ++ i.text render k' := by
  induction is generalizing k with
  | nil => exact ⟨k, by simp [output]⟩
  | cons j is ih =>
    obtain ⟨k', h⟩ := ih (j.args k)
    exact ⟨k', by rw [List.cons_append, output, h, output, List.append_assoc]⟩

theorem output_ne_nil (render : ℕ → ℤ → ℤ → List Char) (k : ℕ) (hne : is ≠ [])
    (hcomplete : ∀ i ∈ is, i.Complete) (hlast : ¬ ∃ i ∈ is.getLast?, i.IsDirective) :
    output render k is ≠ [] := by
  obtain ⟨is, i, rfl⟩ := (List.eq_nil_or_concat is).resolve_left hne
  rw [List.concat_eq_append] at hcomplete hlast ⊢
  obtain ⟨k', h⟩ := length_output_append render is i k
  cases i with
  | literal x => simp [h, Item.text]
  | directive complete w rp => simp at hlast
  | cut => exact absurd rfl (hcomplete _ (by simp)).1

theorem wellEnded_literal (hn : 0 < n) (x : Char) (hb : ∀ j, s < j → bytes' j = bytes j) :
    WellEnded render bytes' (s + 1) (n - 1) k is ↔
      WellEnded render bytes s n k (.literal x :: is) := by
  have hlast : (∃ i ∈ (Item.literal x :: is).getLast?, i.IsDirective) ↔
      ∃ i ∈ is.getLast?, i.IsDirective := by
    cases is with
    | nil => simp
    | cons i is => rw [List.getLast?_cons_cons]
  have hcomplete : (∀ i ∈ Item.literal x :: is, i.Complete) ↔ ∀ i ∈ is, i.Complete := by
    simp [Item.Complete]
  have hbytes : bytes' (s + 1 + (output render k is).length) =
      bytes (s + (output render k (.literal x :: is)).length) := by
    rw [hb _ (by omega), output, List.length_append, ← Nat.add_assoc]
    rfl
  rcases Nat.lt_or_ge 1 n with hlt | hle
  · have hreach : reaching render n k (.literal x :: is) = reaching render (n - 1) k is :=
      if_neg (Nat.not_le.mpr hlt)
    unfold WellEnded
    rw [hreach, hlast, hcomplete, hbytes]
    exact and_congr_left fun _ ↦ iff_of_true (by omega) hn
  · have hreach : reaching render n k (.literal x :: is) = some (.literal x) := if_pos hle
    refine iff_of_false (fun h ↦ absurd h.1 (by omega)) fun h ↦ ?_
    rcases h.2 with ⟨i, hi, hdir⟩ | ⟨hnone, -⟩
    · rw [hreach] at hi
      cases hi
      exact not_isDirective_literal x hdir
    · rw [hreach] at hnone
      cases hnone

theorem wellEnded_directive (hn : (render k w rp).length < n) {s' : ℕ}
    (hs : s' = s + (render k w rp).length)
    (hb : ∀ j, s' < j → bytes' j = bytes j) (hnul : bytes' s' = NUL) :
    WellEnded render bytes' s' (n - (render k w rp).length) (k + 1) is ↔
      WellEnded render bytes s n k (.directive true w rp :: is) := by
  have hreach : reaching render n k (.directive true w rp :: is) =
      reaching render (n - (render k w rp).length) (k + 1) is := if_neg (Nat.not_le.mpr hn)
  have hcomplete : (∀ i ∈ Item.directive true w rp :: is, i.Complete) ↔
      ∀ i ∈ is, i.Complete := by
    simp [Item.Complete]
  have hlength : s + (output render k (.directive true w rp :: is)).length =
      s' + (output render (k + 1) is).length := by
    rw [output, List.length_append, hs, ← Nat.add_assoc]
    rfl
  unfold WellEnded
  rw [hreach, hcomplete, hlength]
  refine and_congr (iff_of_true (by omega) (by omega)) (or_congr_right (and_congr_right fun _ ↦
    and_congr_right fun hall ↦ ?_))
  cases is with
  | nil => exact iff_of_true (.inr hnul) (.inl ⟨.directive true w rp, by simp⟩)
  | cons i is =>
    rw [List.getLast?_cons_cons]
    by_cases hlast : ∃ j ∈ (i :: is).getLast?, j.IsDirective
    · exact iff_of_true (.inl hlast) (.inl hlast)
    · have hpos := List.length_pos_iff.mpr
        (output_ne_nil render (k + 1) (List.cons_ne_nil i is) hall hlast)
      rw [hb _ (by omega)]

/-- Where the loop stands: it has put out `done`, `t` is left of the format, and there were `n`
places at first. -/
structure State.Ahead (L n : ℕ) (junk done t : List Char) (st : State) : Prop where
  fmt : st.fmt.At L junk t
  s : st.s = done.length
  room : st.s + st.n = n
  stored : ∀ i, st.buf.stored i → i < n
  bytes : ∀ i, i < done.length → done[i]? = some (st.buf.bytes i)
  failed : st.failed = false

theorem State.Ahead.literal (h : st.Ahead L n junk done t) (hn : st.n ≠ 0) {c : Cursor}
    (hc : c.At L junk (x :: t')) :
    ({ st with fmt := c } : State).literal.Ahead L n junk (done ++ [x]) t' := by
  have hroom := h.room
  have hs := h.s
  refine ⟨hc.read.next, ?_, ?_, fun j hj ↦ ?_, fun j hj ↦ ?_, h.failed⟩
  · simp [State.literal, hs]
  · simp only [State.literal]
    omega
  · simp only [State.literal, Buffer.store] at hj
    by_cases hjs : j = st.s
    · omega
    · rw [update_of_ne hjs] at hj
      exact h.stored j hj
  · simp only [State.literal, Buffer.store, List.length_append, List.length_singleton] at hj ⊢
    by_cases hjs : j = st.s
    · subst hjs
      rw [update_self, hc.char, hs, List.getElem?_append_right le_rfl]
      simp
    · rw [update_of_ne hjs, List.getElem?_append_left (by omega)]
      exact h.bytes j (by omega)

theorem State.Ahead.directive (h : st.Ahead L n junk done t) (hout : out.length < st.n)
    {c : Cursor} (hc : c.At L junk t') (k : ℕ) :
    ({ st with
      fmt := c
      args := k
      buf := st.buf.snprintf st.s st.n out
      s := st.s + out.length
      n := st.n - out.length } : State).Ahead L n junk (done ++ out) t' := by
  have hroom := h.room
  have hs := h.s
  refine ⟨hc, ?_, ?_, fun j hj ↦ ?_, fun j hj ↦ ?_, h.failed⟩
  · simp [hs]
  · dsimp only
    omega
  · rcases stored_snprintf hj with hj | hj
    · exact h.stored j hj
    · omega
  · rw [List.length_append] at hj
    simp only [snprintf_of_lt _ _ hout]
    rcases Nat.lt_or_ge j done.length with hlt | hge
    · rw [bytes_write_before _ _ (hs ▸ hlt), List.getElem?_append_left hlt]
      exact h.bytes j hlt
    · have hwrite := bytes_write (s := st.s) (out ++ [NUL]) st.buf (j := j - st.s)
        (by rw [List.length_append]; omega)
      rw [Nat.add_sub_cancel' (hs ▸ hge), List.getElem?_append_left (by omega)] at hwrite
      rw [List.getElem?_append_right hge, ← hs]
      exact hwrite

/-- Something behind the format has been read, or is going to be. -/
def State.Lost (L : ℕ) (st : State) : Prop := st.fmt.Over L ∨ L < st.fmt.pos ∧ st.n ≠ 0

theorem turn_case (render : ℕ → ℤ → ℤ → List Char) (st : State) :
    TurnCase render st (turn render st) := by
  unfold turn
  split
  · next hn => exact .full hn
  · next hn =>
    dsimp only
    split
    · next h => exact .finish hn h
    · next h =>
      split
      · next hx => exact .literal hn h hx
      · next hx =>
        split
        · next hx' => exact .percent hn (not_not.mp hx) hx'
        · next hx' =>
          unfold State.convert
          dsimp only
          split
          · next hlen => exact .failure hn (not_not.mp hx) hx' hlen
          · next hlen => exact .converted hn (not_not.mp hx) hx' (Nat.lt_of_not_le hlen)

theorem Cursor.moves_literal (c : Cursor) : c.Moves c.read.next :=
  c.moves_read.trans c.read.moves_next

theorem over_of_moves (h : st.Lost L) (hm : st.fmt.read.Moves c) : c.Over L := by
  rcases h with h | ⟨hpos, -⟩
  · exact (h.moves st.fmt.moves_read).moves hm
  · exact Cursor.Over.moves ⟨st.fmt.pos, List.mem_cons_self, hpos⟩ hm

theorem State.moves_converted (st : State) (render : ℕ → ℤ → ℤ → List Char) :
    st.fmt.read.next.Moves (st.converted render).fmt :=
  ((Cursor.moves_read _).trans (Cursor.moves_directive _)).trans (Cursor.moves_literal _)

theorem State.Lost.turn_next (h : st.Lost L) (hturn : turn render st = .next st') :
    st'.fmt.Over L := by
  have hcase := turn_case render st
  rw [hturn] at hcase
  cases hcase with
  | literal => exact over_of_moves h (Cursor.moves_literal _)
  | percent =>
    exact over_of_moves h ((Cursor.moves_next _).trans
      ((Cursor.moves_read _).trans (Cursor.moves_literal _)))
  | converted =>
    exact over_of_moves h ((Cursor.moves_next _).trans (st.moves_converted render))

theorem State.Lost.turn_stop (h : st.Lost L) (hturn : turn render st = .stop st') :
    st'.fmt.Over L := by
  have hcase := turn_case render st
  rw [hturn] at hcase
  cases hcase with
  | full hn => exact h.resolve_right fun h ↦ h.2 hn
  | finish => exact over_of_moves h (Cursor.Moves.refl _)
  | failure =>
    exact over_of_moves h ((Cursor.moves_next _).trans (st.moves_converted render))

theorem rest_lt_of_char (h : c.char ≠ NUL) (hm : c.next.Moves c') :
    c'.rest.length < c.rest.length := by
  have hrest := hm.rest
  obtain ⟨rest, pos, reads⟩ := c
  cases rest with
  | nil => exact absurd rfl h
  | cons x rest => exact Nat.lt_succ_of_le hrest

theorem rest_lt_of_turn (hturn : turn render st = .next st') :
    st'.fmt.rest.length < st.fmt.rest.length := by
  have hcase := turn_case render st
  rw [hturn] at hcase
  cases hcase with
  | literal _ h => exact rest_lt_of_char (c := st.fmt.read.read) h (.refl _)
  | percent _ h =>
    refine rest_lt_of_char (c := st.fmt.read) (fun h' ↦ ?_)
      ((Cursor.moves_read _).trans (Cursor.moves_literal _))
    cases h.symm.trans h'
  | converted _ h =>
    refine rest_lt_of_char (c := st.fmt.read) (fun h' ↦ ?_) (st.moves_converted render)
    cases h.symm.trans h'

theorem exists_ends_turn (render : ℕ → ℤ → ℤ → List Char) (st : State) :
    ∃ m st', Loops.Ends (turn render) m st st' :=
  exists_ends (P := fun _ ↦ True) (μ := fun st ↦ st.fmt.rest.length)
    (fun _ _ _ hturn ↦ ⟨trivial, rest_lt_of_turn hturn⟩) trivial

theorem State.Lost.ends (render : ℕ → ℤ → ℤ → List Char) (h : st.Lost L) :
    ∃ m st', Loops.Ends (turn render) m st st' ∧ st'.fmt.Over L := by
  obtain ⟨m, st', hend⟩ := exists_ends_turn render st
  refine ⟨m, st', hend, ?_⟩
  apply hend.invariant (P := State.Lost L) (Q := fun st ↦ st.fmt.Over L) h
  · exact fun _ _ h hturn ↦ .inl (h.turn_next hturn)
  · exact fun _ _ h hturn ↦ h.turn_stop hturn

theorem State.Good.not_over {full : List Char} (h : st.Good L n full) : ¬ st.fmt.Over L := by
  rintro ⟨i, hi, hlt⟩
  exact Nat.not_le.mpr hlt (h.reads i hi)

theorem items_literal (hx : x ≠ '%') (t : List Char) : items (x :: t) = .literal x :: items t := by
  rw [items, if_pos hx]

theorem items_percent (t : List Char) : items ('%' :: '%' :: t) = .literal '%' :: items t := by
  rw [items, if_neg (by simp), if_pos (by simp), List.tail_cons]

theorem items_cut (hx : t.head? ≠ some '%') (ht : fields t = none) : items ('%' :: t) = [.cut] := by
  rw [items, if_neg (by simp), if_neg hx]
  split <;> simp_all

theorem items_unfinished (hx : t.head? ≠ some '%') (ht : fields t = some (w, rp, [])) :
    items ('%' :: t) = [.directive false w rp] := by
  rw [items, if_neg (by simp), if_neg hx]
  split <;> simp_all

theorem items_directive (hx : t.head? ≠ some '%') (ht : fields t = some (w, rp, x :: t')) :
    items ('%' :: t) = .directive true w rp :: items t' := by
  rw [items, if_neg (by simp), if_neg hx]
  split <;> simp_all

theorem items_of_fields (hx : t.head? ≠ some '%') (ht : fields t = some (w, rp, t')) :
    ∃ complete is, items ('%' :: t) = .directive complete w rp :: is := by
  cases t' with
  | nil => exact ⟨false, [], items_unfinished hx ht⟩
  | cons x t' => exact ⟨true, items t', items_directive hx ht⟩

theorem wellEnded_of_le (hn : 0 < n) {complete : Bool} (h : n ≤ (render k w rp).length) :
    WellEnded render bytes s n k (.directive complete w rp :: is) :=
  ⟨hn, .inl ⟨_, if_pos h, isDirective_directive complete w rp⟩⟩

theorem not_wellEnded_unfinished (h : (render k w rp).length < n) :
    ¬ WellEnded render bytes s n k [.directive false w rp] := by
  have hreach : reaching render n k [.directive false w rp] = none := if_neg (Nat.not_le.mpr h)
  intro ⟨_, hend⟩
  rw [hreach] at hend
  rcases hend with ⟨i, hi, -⟩ | ⟨-, hcomplete, -⟩
  · cases hi
  · exact (hcomplete _ List.mem_cons_self).2 w rp rfl

theorem not_wellEnded_cut : ¬ WellEnded render bytes s n k [.cut] := by
  intro ⟨hn, hend⟩
  have hreach : reaching render n k [.cut] = none := if_neg (Nat.not_le.mpr hn)
  rw [hreach] at hend
  rcases hend with ⟨i, hi, -⟩ | ⟨-, hcomplete, -⟩
  · cases hi
  · exact (hcomplete _ List.mem_cons_self).1 rfl

theorem wellEnded_nil : WellEnded render bytes s n k [] ↔ 0 < n ∧ bytes s = NUL := by
  simp [WellEnded, reaching, output]

theorem Cursor.At.exists_cons (h : c.At L junk t) (hc : c.char ≠ NUL) : ∃ t', t = c.char :: t' := by
  cases t with
  | nil => exact absurd h.char_nil hc
  | cons x t => exact ⟨t, h.char ▸ rfl⟩

/-- The loop comes to an end, and to a good one under the condition. -/
def State.EndsWell (render : ℕ → ℤ → ℤ → List Char) (L n : ℕ) (done t : List Char)
    (st : State) : Prop :=
  ∃ m st', Loops.Ends (turn render) m st st' ∧
    (st'.Good L n (done ++ output render st.args (items t)) ↔
      WellEnded render st.buf.bytes st.s st.n st.args (items t))

theorem State.EndsWell.of_next {st₁ : State} {done₁ t₁ : List Char}
    (h : st₁.EndsWell render L n done₁ t₁) (hturn : turn render st = .next st₁)
    (hout : done₁ ++ output render st₁.args (items t₁) = done ++ output render st.args (items t))
    (hiff : WellEnded render st₁.buf.bytes st₁.s st₁.n st₁.args (items t₁) ↔
      WellEnded render st.buf.bytes st.s st.n st.args (items t)) :
    st.EndsWell render L n done t := by
  obtain ⟨m, st', hend, hgood⟩ := h
  rw [hout, hiff] at hgood
  exact ⟨m + 1, st', .next hturn hend, hgood⟩

theorem State.EndsWell.of_lost {st₁ : State} (hturn : turn render st = .next st₁)
    (h : st₁.Lost L) (hnot : ¬ WellEnded render st.buf.bytes st.s st.n st.args (items t)) :
    st.EndsWell render L n done t := by
  obtain ⟨m, st', hend, hover⟩ := h.ends render
  exact ⟨m + 1, st', .next hturn hend, iff_of_false (fun hgood ↦ hgood.not_over hover) hnot⟩

theorem State.Ahead.endsWell_full (h : st.Ahead L n junk done t) (hn : st.n = 0) :
    st.EndsWell render L n done t := by
  refine ⟨0, st, .stop (if_pos hn), iff_of_false (fun hgood ↦ ?_) fun hend ↦ ?_⟩
  · rcases hgood.ended with ⟨-, hfailed⟩ | ⟨hlt, -⟩
    · rw [h.failed] at hfailed
      cases hfailed
    · have hroom := h.room
      have hs := h.s
      rw [List.length_append] at hlt
      omega
  · exact absurd hend.1 (by omega)

theorem State.Ahead.endsWell_nil (h : st.Ahead L n junk done []) (hn : st.n ≠ 0)
    (hturn : turn render st = .stop { st with fmt := st.fmt.read }) :
    st.EndsWell render L n done [] := by
  have hroom := h.room
  have hs := h.s
  refine ⟨0, _, .stop hturn, ?_⟩
  rw [items, wellEnded_nil, output, List.append_nil]
  constructor
  · intro hgood
    rcases hgood.ended with ⟨-, hfailed⟩ | ⟨-, -, -, hnul, -⟩
    · cases h.failed.symm.trans hfailed
    · exact ⟨Nat.pos_of_ne_zero hn, hs ▸ hnul⟩
  · intro hend
    obtain ⟨-, hnul⟩ := hend
    exact ⟨h.fmt.read.reads, h.stored,
      .inr ⟨by omega, h.failed, hs, hs ▸ hnul, h.bytes⟩⟩

theorem head?_ne_of_char (h : c.At L junk t) (hx : c.char ≠ '%') : t.head? ≠ some '%' := by
  intro hhead
  obtain ⟨t, rfl⟩ := List.head?_eq_some_iff.mp hhead
  exact hx h.char

theorem State.Ahead.endsWell_failure (h : st.Ahead L n junk done ('%' :: t)) (hn : st.n ≠ 0)
    (hx : st.fmt.next.char ≠ '%') (hlen : st.n ≤ (st.number render).length)
    (hturn : turn render st = .stop { st.converted render with failed := true }) :
    st.EndsWell render L n done ('%' :: t) := by
  have hat := h.fmt.read.next.read
  have hhead := head?_ne_of_char hat hx
  refine ⟨0, _, .stop hturn, ?_⟩
  cases hfields : fields t with
  | none =>
    rw [items_cut hhead hfields]
    refine iff_of_false (fun hgood ↦ hgood.not_over ?_) not_wellEnded_cut
    exact (hat.over_directive hfields).moves (Cursor.moves_literal _)
  | some d =>
    obtain ⟨w, rp, t'⟩ := d
    obtain ⟨c, hc, hat'⟩ := hat.directive hfields
    obtain ⟨complete, is, hitems⟩ := items_of_fields hhead hfields
    simp only [State.number, hc] at hlen
    simp only [State.converted, hc, hitems]
    refine iff_of_true ⟨hat'.read.reads, fun j hj ↦ ?_, .inl ⟨?_, rfl⟩⟩
      (wellEnded_of_le (Nat.pos_of_ne_zero hn) hlen)
    · have hroom := h.room
      rcases stored_snprintf hj with hj | hj
      · exact h.stored j hj
      · omega
    · have hroom := h.room
      have hs := h.s
      simp only [output, Item.text, List.length_append]
      omega

theorem State.Ahead.endsWell_converted (h : st.Ahead L n junk done ('%' :: t))
    (ht : NUL ∉ t) (hx : st.fmt.next.char ≠ '%') (hlen : (st.number render).length < st.n)
    (hturn : turn render st = .next { st.converted render with
      s := st.s + (st.number render).length
      n := st.n - (st.number render).length })
    (ih : ∀ st₁ : State, ∀ t₁ done₁, t₁.length < t.length → NUL ∉ t₁ →
      st₁.Ahead L n junk done₁ t₁ → st₁.EndsWell render L n done₁ t₁) :
    st.EndsWell render L n done ('%' :: t) := by
  have hat := h.fmt.read.next.read
  have hhead := head?_ne_of_char hat hx
  cases hfields : fields t with
  | none =>
    refine .of_lost hturn (.inl ?_) (items_cut hhead hfields ▸ not_wellEnded_cut)
    exact (hat.over_directive hfields).moves (Cursor.moves_literal _)
  | some d =>
    obtain ⟨w, rp, t'⟩ := d
    obtain ⟨c, hc, hat'⟩ := hat.directive hfields
    simp only [State.number, State.converted, hc] at hlen hturn
    cases t' with
    | nil =>
      refine .of_lost hturn (.inr ⟨?_, ?_⟩)
        (items_unfinished hhead hfields ▸ not_wellEnded_unfinished hlen)
      · have := hat'.pos
        simp only [Cursor.next, Cursor.read, List.length_nil] at this ⊢
        omega
      · dsimp only
        omega
    | cons x t' =>
      have hsuffix := fields_suffix hfields
      have hnext := ih _ t' (done ++ render st.args w rp)
        (Nat.lt_of_succ_le hsuffix.length_le) (fun hmem ↦ ht (hsuffix.subset (by simp [hmem])))
        (h.directive hlen hat'.read.next (st.args + 1))
      refine hnext.of_next hturn ?_ ?_
      · rw [items_directive hhead hfields, output, List.append_assoc]
        rfl
      · rw [items_directive hhead hfields]
        refine wellEnded_directive hlen rfl (fun j hj ↦ ?_) ?_
        · simp only [snprintf_of_lt _ _ hlen]
          apply bytes_write_behind
          dsimp only at hj
          rw [List.length_append, List.length_singleton]
          omega
        · have hwrite := bytes_write (s := st.s) (render st.args w rp ++ [NUL]) st.buf
            (j := (render st.args w rp).length) (by simp)
          rw [List.getElem?_append_right le_rfl, Nat.sub_self, List.getElem?_cons_zero] at hwrite
          simp only [snprintf_of_lt _ _ hlen]
          exact (Option.some.inj hwrite).symm

theorem State.Ahead.endsWell (render : ℕ → ℤ → ℤ → List Char) (h : st.Ahead L n junk done t)
    (ht : NUL ∉ t) : st.EndsWell render L n done t := by
  induction hlen : t.length using Nat.strong_induction_on generalizing st done t with
  | h len ih =>
    have hcase := turn_case render st
    generalize hturn : turn render st = r at hcase
    cases hcase with
    | full hn => exact h.endsWell_full hn
    | finish hn hchar =>
      cases t with
      | nil => exact h.endsWell_nil hn hturn
      | cons x t =>
        rw [h.fmt.char] at hchar
        simp [hchar] at ht
    | literal hn hchar hx =>
      obtain ⟨t, rfl⟩ := h.fmt.exists_cons hchar
      rw [List.mem_cons, not_or] at ht
      have hnext := ih t.length (by simp [← hlen]) (h.literal hn h.fmt.read) ht.2 rfl
      refine hnext.of_next hturn ?_ ?_
      · rw [items_literal hx, output, List.append_assoc]
        rfl
      · rw [items_literal hx]
        exact wellEnded_literal (Nat.pos_of_ne_zero hn) _ fun j hj ↦
          update_of_ne (Nat.ne_of_gt hj) _ _
    | percent hn hchar hx =>
      obtain ⟨t, rfl⟩ := h.fmt.exists_cons (hchar ▸ by decide)
      obtain ⟨t, rfl⟩ := h.fmt.next.exists_cons (hx ▸ by decide)
      rw [hchar, hx] at h ht hlen ⊢
      rw [List.length_cons, List.length_cons] at hlen
      have hnext := ih t.length (by omega) (h.literal hn h.fmt.read.next.read)
        (fun hmem ↦ ht (by simp [hmem])) rfl
      refine hnext.of_next hturn ?_ ?_
      · rw [items_percent, output, List.append_assoc]
        rfl
      · rw [items_percent]
        exact wellEnded_literal (Nat.pos_of_ne_zero hn) _ fun j hj ↦
          update_of_ne (Nat.ne_of_gt hj) _ _
    | failure hn hchar hx hlength =>
      obtain ⟨t, rfl⟩ := h.fmt.exists_cons (hchar ▸ by decide)
      rw [hchar] at h ⊢
      exact h.endsWell_failure hn hx hlength hturn
    | converted _ hchar hx hlength =>
      obtain ⟨t, rfl⟩ := h.fmt.exists_cons (hchar ▸ by decide)
      rw [hchar] at h hlen ht ⊢
      apply h.endsWell_converted (fun hmem ↦ ht (by simp [hmem])) hx hlength hturn
      intro st₁ t₁ done₁ hlt ht₁ h₁
      exact ih t₁.length (by simp [← hlen]; omega) h₁ ht₁ rfl

theorem good_iff {text : List Char} : st.Good text.length n (output render 0 (items text)) ↔
    (∀ i ∈ st.outcome.last.fmt.reads, i ≤ text.length) ∧
      (∀ i, st.outcome.last.buf.stored i → i < n) ∧
      (n ≤ (output render 0 (items text)).length ∧ st.outcome.ret = -1 ∧
          st.outcome.errno = some E2BIG ∨
        ∃ l, l < n ∧ l = (output render 0 (items text)).length ∧ st.outcome.ret = l ∧
          st.outcome.last.buf.bytes l = NUL ∧
          ∀ i, i < l →
            (output render 0 (items text))[i]? = some (st.outcome.last.buf.bytes i)) := by
  have hlast : st.outcome.last = st := by
    unfold State.outcome
    split <;> rfl
  rw [hlast]
  constructor
  · rintro ⟨hreads, hstored, ⟨hle, hfailed⟩ | ⟨hlt, hfailed, hs, hnul, hbytes⟩⟩
    · exact ⟨hreads, hstored, .inl ⟨hle, by simp [State.outcome, hfailed]⟩⟩
    · refine ⟨hreads, hstored, .inr ⟨_, hlt, rfl, ?_, hnul, hbytes⟩⟩
      simp [State.outcome, hfailed, hs]
  · rintro ⟨hreads, hstored, hend⟩
    refine ⟨hreads, hstored, ?_⟩
    cases hfailed : st.failed with
    | true =>
      rcases hend with ⟨hle, -⟩ | ⟨l, -, -, hret, -⟩
      · exact .inl ⟨hle, rfl⟩
      · simp [State.outcome, hfailed] at hret
    | false =>
      rcases hend with ⟨-, hret, -⟩ | ⟨l, hlt, rfl, hret, hnul, hbytes⟩
      · simp [State.outcome, hfailed] at hret
      · simp only [State.outcome, hfailed] at hret
        exact .inr ⟨hlt, rfl, Int.ofNat.inj hret, hnul, hbytes⟩

/-- `vstrfmon_l` stays within its format and its buffer if, and only if, there is room, and the
first piece that does not fit is a directive, or all of them are complete and fit, and the last one
is a directive (or there has been a null character in the right place before). -/
theorem staysWithin_iff (render : ℕ → ℤ → ℤ → List Char) (n : ℕ) (text junk : List Char)
    (bytes : ℕ → Char) (htext : NUL ∉ text) :
    StaysWithin render n text junk bytes ↔ WellEnded render bytes 0 n 0 (items text) := by
  have hahead : State.Ahead text.length n junk [] text {
      fmt := ⟨text ++ NUL :: junk, 0, []⟩
      s := 0
      n := n
      buf := { bytes := bytes } } := by
    refine ⟨⟨rfl, Nat.zero_add _, nofun⟩, rfl, Nat.zero_add n, nofun, nofun, rfl⟩
  obtain ⟨m, st', hend, hgood⟩ := hahead.endsWell render htext
  rw [List.nil_append, good_iff] at hgood
  refine Iff.trans ⟨?_, fun h ↦ ⟨_, hend.returns.map _, h⟩⟩ hgood
  rintro ⟨r, hret, h⟩
  cases hret.unique (hend.returns.map _)
  exact h

theorem staysWithin_number : StaysWithin (fun _ _ _ ↦ ['1', '.', '5']) 4 ['%', '-', '7', 'n'] ['x']
    (fun _ ↦ ' ') := by
  refine (staysWithin_iff _ 4 ['%', '-', '7', 'n'] ['x'] _ (by decide)).mpr ?_
  have hfields : fields ['-', '7', 'n'] = some (3, 2, ['n']) := by decide
  have hitems : items ['%', '-', '7', 'n'] = [.directive true 3 2] := by
    rw [items_directive (by decide) hfields, items]
  rw [hitems]
  exact ⟨by decide, .inr ⟨rfl, by simp [Item.Complete], .inl ⟨.directive true 3 2, by simp⟩⟩⟩

/-- A directive without its letter: what stands behind the format is read. -/
theorem staysWithin_unfinished : ¬ StaysWithin (fun _ _ _ ↦ ['1', '.', '5']) 10 ['%'] ['x']
    (fun _ ↦ ' ') := by
  rintro ⟨r, hret, hreads, -⟩
  have hrun := hret.unique ((returns_of_run (n := 5) rfl).map State.outcome)
  subst hrun
  exact absurd (hreads 2 (by decide)) (by decide)

end

end SceLibcPosix.Locale
