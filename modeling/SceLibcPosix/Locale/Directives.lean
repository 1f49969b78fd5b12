import Mathlib.Data.List.TakeWhile
import SceLibcPosix.Locale.Strfmon

namespace SceLibcPosix.Locale

/-- A piece of a format: a character, a directive for a width and a precision, which may lack its
letter, or one that ends where its fill character should stand. -/
inductive Item
  | literal (c : Char)
  | directive (complete : Bool) (w rp : ℤ)
  | cut
deriving DecidableEq

def skipFlags : List Char → Option (Bool × List Char)
  | [] => some (false, [])
  | c :: t =>
    if c = '=' then
      match t with
      | [] => none
      | _ :: t => skipFlags t
    else if c = '-' then (skipFlags t).map fun x ↦ (true, x.2)
    else if c ∈ ['^', '(', '+', '!'] then skipFlags t
    else some (false, c :: t)

def digits (v : ℤ) (t : List Char) : ℤ :=
  (t.takeWhile Char.isDigit).foldl (fun v c ↦ int (10 * v + (c.toNat - '0'.toNat))) v

def number (mark : Char) (v : ℤ) (t : List Char) : ℤ × List Char :=
  if t.head? = some mark then (digits 0 t.tail, t.tail.dropWhile Char.isDigit) else (v, t)

/-- The width, the precision and the text from the letter on. -/
def fields (t : List Char) : Option (ℤ × ℤ × List Char) :=
  (skipFlags t).map fun flags ↦
    let lp := number '#' 0 (flags.2.dropWhile Char.isDigit)
    let rp := number '.' 2 lp.2
    (width flags.1 (digits 0 flags.2) lp.1 rp.1, rp.1, rp.2)

theorem skipFlags_cons {c : Char} (h : c ≠ '=') (t : List Char) : skipFlags (c :: t) =
    if c = '-' then (skipFlags t).map fun x ↦ (true, x.2)
    else if c ∈ ['^', '(', '+', '!'] then skipFlags t
    else some (false, c :: t) := by
  cases t <;> exact if_neg h

theorem skipFlags_suffix {t t' : List Char} {left : Bool} (h : skipFlags t = some (left, t')) :
    t' <:+ t := by
  induction t using skipFlags.induct generalizing left with
  | case1 =>
    cases h
    exact List.suffix_rfl
  | case2 => simp [skipFlags] at h
  | case3 x t ih =>
    rw [skipFlags, if_pos rfl] at h
    exact (ih h).trans ((List.suffix_cons x t).trans (List.suffix_cons _ _))
  | case4 t _ ih =>
    rw [skipFlags_cons (by decide), if_pos rfl] at h
    obtain ⟨⟨left', t''⟩, h', heq⟩ := Option.map_eq_some_iff.mp h
    cases heq
    exact (ih h').trans (List.suffix_cons _ _)
  | case5 c t hfill hleft hflag ih =>
    rw [skipFlags_cons hfill, if_neg hleft, if_pos hflag] at h
    exact (ih h).trans (List.suffix_cons _ _)
  | case6 c t hfill hleft hflag =>
    rw [skipFlags_cons hfill, if_neg hleft, if_neg hflag] at h
    cases h
    exact List.suffix_rfl

theorem number_suffix (mark : Char) (v : ℤ) (t : List Char) : (number mark v t).2 <:+ t := by
  unfold number
  split
  · exact (List.dropWhile_suffix _).trans (List.tail_suffix t)
  · exact List.suffix_rfl

theorem fields_suffix {t t' : List Char} {w rp : ℤ} (h : fields t = some (w, rp, t')) :
    t' <:+ t := by
  obtain ⟨⟨left, u⟩, hflags, heq⟩ := Option.map_eq_some_iff.mp h
  simp only [Prod.mk.injEq] at heq
  obtain ⟨-, -, rfl⟩ := heq
  exact (number_suffix _ _ _).trans ((number_suffix _ _ _).trans
    ((List.dropWhile_suffix _).trans (skipFlags_suffix hflags)))

/-- The pieces of a format. -/
def items : List Char → List Item
  | [] => []
  | c :: t =>
    if c ≠ '%' then .literal c :: items t
    else if t.head? = some '%' then .literal '%' :: items t.tail
    else
      match _h : fields t with
      | none => [.cut]
      | some (w, rp, []) => [.directive false w rp]
      | some (w, rp, _ :: t') => .directive true w rp :: items t'
termination_by t => t.length
decreasing_by
  · exact Nat.lt_succ_self _
  · simp only [List.length_tail, List.length_cons]
    omega
  · have := (fields_suffix ‹_›).length_le
    simp only [List.length_cons] at this ⊢
    omega

section

variable {L : ℕ} {junk t t' : List Char} {c c' : Cursor} {x : Char} {left : Bool} {v w rp : ℤ}

/-- The pointer stands before `t`, the rest of the text, and nothing behind the null character at
`L` has been read. -/
structure Cursor.At (L : ℕ) (junk t : List Char) (c : Cursor) : Prop where
  rest : c.rest = t ++ NUL :: junk
  pos : c.pos + t.length = L
  reads : ∀ i ∈ c.reads, i ≤ L

/-- Something behind the null character has been read. -/
def Cursor.Over (L : ℕ) (c : Cursor) : Prop := ∃ i ∈ c.reads, L < i

/-- What a cursor does: it moves on, and reads. -/
structure Cursor.Moves (c c' : Cursor) : Prop where
  rest : c'.rest.length ≤ c.rest.length
  reads : c.reads <:+ c'.reads

theorem Cursor.Moves.refl (c : Cursor) : c.Moves c := ⟨le_rfl, List.suffix_rfl⟩

theorem Cursor.Moves.trans {c'' : Cursor} (h : c.Moves c') (h' : c'.Moves c'') : c.Moves c'' :=
  ⟨h'.rest.trans h.rest, h.reads.trans h'.reads⟩

theorem Cursor.Over.moves (h : c.Over L) (hm : c.Moves c') : c'.Over L := by
  obtain ⟨i, hi, hlt⟩ := h
  exact ⟨i, hm.reads.subset hi, hlt⟩

theorem Cursor.moves_read (c : Cursor) : c.Moves c.read := ⟨le_rfl, List.suffix_cons _ _⟩

theorem Cursor.moves_next (c : Cursor) : c.Moves c.next :=
  ⟨(List.tail_suffix c.rest).length_le, List.suffix_rfl⟩

theorem flagLoop_cons (hx : x ≠ '=') (rest : List Char) (f : Flags) (pos : ℕ) (reads : List ℕ) :
    flagLoop (x :: rest) f pos reads = (f.set x).elim (f, ⟨x :: rest, pos, pos :: reads⟩)
      fun f ↦ flagLoop rest f (pos + 1) (pos :: reads) := by
  cases rest <;> rw [flagLoop, if_neg hx] <;> cases f.set x <;> rfl

theorem moves_flagLoop (rest : List Char) (f : Flags) (pos : ℕ) (reads : List ℕ) :
    Cursor.Moves ⟨rest, pos, reads⟩ (flagLoop rest f pos reads).2 := by
  induction hn : rest.length using Nat.strong_induction_on generalizing rest f pos reads with
  | h n ih =>
    cases rest with
    | nil => exact ⟨le_rfl, List.suffix_cons _ _⟩
    | cons x rest =>
      by_cases hx : x = '='
      · subst hx
        cases rest with
        | nil => exact ⟨Nat.zero_le _, ⟨[pos + 2, pos + 1, pos], rfl⟩⟩
        | cons fill rest =>
          have hlen : rest.length < ('=' :: fill :: rest).length :=
            (Nat.lt_succ_self _).trans (Nat.lt_succ_self _)
          obtain ⟨hrest, hreads⟩ := ih rest.length (hn ▸ hlen) rest
            { f with fill := fill } (pos + 2) ((pos + 1) :: pos :: reads) rfl
          exact ⟨hrest.trans hlen.le, List.IsSuffix.trans ⟨[pos + 1, pos], rfl⟩ hreads⟩
      · rw [flagLoop_cons hx]
        cases f.set x with
        | none => exact ⟨le_rfl, List.suffix_cons _ _⟩
        | some f =>
          obtain ⟨hrest, hreads⟩ := ih rest.length (by simp [← hn]) rest f (pos + 1) (pos :: reads)
            rfl
          exact ⟨hrest.trans (Nat.le_succ _), (List.suffix_cons _ _).trans hreads⟩

theorem moves_digitLoop (rest : List Char) (v : ℤ) (pos : ℕ) (reads : List ℕ) :
    Cursor.Moves ⟨rest, pos, reads⟩ (digitLoop rest v pos reads).2 := by
  induction rest generalizing v pos reads with
  | nil => exact ⟨le_rfl, List.suffix_cons _ _⟩
  | cons c rest ih =>
    rw [digitLoop]
    split
    · obtain ⟨hrest, hreads⟩ := ih (int (10 * v + (c.toNat - '0'.toNat))) (pos + 1) (pos :: reads)
      exact ⟨hrest.trans (Nat.le_succ _), (List.suffix_cons _ _).trans hreads⟩
    · exact ⟨le_rfl, List.suffix_cons _ _⟩

theorem Cursor.moves_field (c : Cursor) (mark : Char) (v : ℤ) : c.Moves (c.field mark v).2 := by
  unfold Cursor.field
  split
  · exact (c.moves_read.trans c.read.moves_next).trans (moves_digitLoop _ _ _ _)
  · exact c.moves_read

theorem Cursor.moves_directive (c : Cursor) : c.Moves c.directive.2.2 := by
  unfold Cursor.directive
  exact (moves_flagLoop _ _ _ _).trans ((moves_digitLoop _ _ _ _).trans
    ((Cursor.moves_field _ _ _).trans (Cursor.moves_field _ _ _)))

theorem Cursor.At.char (h : c.At L junk (x :: t)) : c.char = x := by
  rw [Cursor.char, h.rest]
  rfl

theorem Cursor.At.char_nil (h : c.At L junk []) : c.char = NUL := by
  rw [Cursor.char, h.rest]
  rfl

theorem Cursor.At.read (h : c.At L junk t) : c.read.At L junk t :=
  ⟨h.rest, h.pos, List.forall_mem_cons.mpr ⟨h.pos ▸ Nat.le_add_right _ _, h.reads⟩⟩

theorem Cursor.At.next (h : c.At L junk (x :: t)) : c.next.At L junk t := by
  refine ⟨congrArg List.tail h.rest, ?_, h.reads⟩
  have := h.pos
  simp only [List.length_cons] at this
  simp only [Cursor.next]
  omega

theorem digitLoop_stop (hx : c.char.isDigit = false) (v : ℤ) :
    digitLoop c.rest v c.pos c.reads = (v, c.read) := by
  obtain ⟨rest, pos, reads⟩ := c
  cases rest with
  | nil => rfl
  | cons x rest => exact if_neg (Bool.eq_false_iff.mp hx)

theorem Cursor.At.digitLoop (h : c.At L junk t) (v : ℤ) :
    (digitLoop c.rest v c.pos c.reads).1 = digits v t ∧
      (digitLoop c.rest v c.pos c.reads).2.At L junk (t.dropWhile Char.isDigit) := by
  induction t generalizing c v with
  | nil =>
    rw [digitLoop_stop (h.char_nil ▸ rfl)]
    exact ⟨rfl, h.read⟩
  | cons x t ih =>
    cases hx : x.isDigit with
    | false =>
      rw [digitLoop_stop (h.char ▸ hx), digits, List.takeWhile_cons_of_neg (by simp [hx]),
        List.dropWhile_cons_of_neg (by simp [hx])]
      exact ⟨rfl, h.read⟩
    | true =>
      have hstep : Locale.digitLoop c.rest v c.pos c.reads =
          Locale.digitLoop c.read.next.rest (int (10 * v + (x.toNat - '0'.toNat))) c.read.next.pos
            c.read.next.reads := by
        rw [h.rest, List.cons_append, Locale.digitLoop, if_pos hx, Cursor.next, Cursor.read, h.rest]
        rfl
      rw [hstep, digits, List.takeWhile_cons_of_pos hx, List.dropWhile_cons_of_pos hx]
      exact ih h.read.next (int (10 * v + (x.toNat - '0'.toNat)))

theorem Cursor.At.field (h : c.At L junk t) {mark : Char} (hmark : mark ≠ NUL) (v : ℤ) :
    (c.field mark v).1 = (number mark v t).1 ∧
      (c.field mark v).2.At L junk (number mark v t).2 := by
  unfold Cursor.field number
  cases t with
  | nil =>
    rw [if_neg (h.char_nil ▸ hmark.symm), if_neg (by simp)]
    exact ⟨rfl, h.read⟩
  | cons x t =>
    by_cases hx : x = mark
    · rw [if_pos (h.char.trans hx), List.head?_cons, if_pos (congrArg some hx)]
      exact h.read.next.digitLoop 0
    · rw [if_neg (h.char ▸ hx), if_neg (by simpa using hx)]
      exact ⟨rfl, h.read⟩

theorem flagLoop_stop {f : Flags} (hx : c.char ≠ '=') (hset : f.set c.char = none) :
    flagLoop c.rest f c.pos c.reads = (f, c.read) := by
  obtain ⟨rest, pos, reads⟩ := c
  cases rest with
  | nil => rfl
  | cons x rest =>
    refine (flagLoop_cons (x := x) hx rest f pos reads).trans ?_
    exact congrArg (Option.elim · _ _) hset

theorem flagLoop_step {f f' : Flags} (h : c.At L junk (x :: t)) (hx : x ≠ '=')
    (hset : f.set x = some f') : flagLoop c.rest f c.pos c.reads =
      flagLoop c.read.next.rest f' c.read.next.pos c.read.next.reads := by
  rw [h.rest, List.cons_append, flagLoop_cons hx, hset, Cursor.next, Cursor.read, h.rest]
  rfl

theorem flagLoop_fill {y : Char} {rest : List Char} (h : c.rest = '=' :: y :: rest) (f : Flags) :
    flagLoop c.rest f c.pos c.reads = flagLoop c.read.next.read.next.rest { f with fill := y }
      c.read.next.read.next.pos c.read.next.read.next.reads := by
  simp only [Cursor.next, Cursor.read, h]
  rfl

theorem mem_flagLoop (c : Cursor) (f : Flags) :
    c.pos ∈ (flagLoop c.rest f c.pos c.reads).2.reads := by
  obtain ⟨rest, pos, reads⟩ := c
  cases rest with
  | nil => exact List.mem_cons_self
  | cons x rest =>
    by_cases hx : x = '='
    · subst hx
      cases rest with
      | nil => simp [flagLoop]
      | cons fill rest => exact (moves_flagLoop rest _ _ _).reads.subset (by simp)
    · simp only [flagLoop_cons hx]
      cases f.set x with
      | none => exact List.mem_cons_self
      | some f => exact (moves_flagLoop rest f _ _).reads.subset List.mem_cons_self

theorem set_isSome (f : Flags) (x : Char) :
    (f.set x).isSome ↔ x = '-' ∨ x ∈ ['^', '(', '+', '!'] := by
  unfold Flags.set
  split <;> simp_all

theorem set_left {f f' : Flags} (h : f.set x = some f') :
    f'.left = (f.left || decide (x = '-')) := by
  unfold Flags.set at h
  split at h <;> cases h <;> simp_all

theorem Cursor.At.flagLoop (h : c.At L junk t) (f : Flags) (ht : skipFlags t = some (left, t')) :
    (flagLoop c.rest f c.pos c.reads).1.left = (f.left || left) ∧
      (flagLoop c.rest f c.pos c.reads).2.At L junk t' := by
  induction t using skipFlags.induct generalizing c f left with
  | case1 =>
    cases ht
    rw [flagLoop_stop (h.char_nil ▸ by decide) (h.char_nil ▸ rfl)]
    exact ⟨(Bool.or_false _).symm, h.read⟩
  | case2 => simp [skipFlags] at ht
  | case3 y t ih =>
    rw [flagLoop_fill h.rest]
    exact ih h.read.next.read.next { f with fill := y } ht
  | case4 t hne ih =>
    rw [skipFlags_cons hne, if_pos rfl] at ht
    obtain ⟨⟨left', t''⟩, hflags, heq⟩ := Option.map_eq_some_iff.mp ht
    cases heq
    rw [flagLoop_step h hne rfl]
    obtain ⟨hleft, hat⟩ := ih h.read.next { f with left := true } hflags
    exact ⟨hleft.trans (by simp), hat⟩
  | case5 x t hfill hleft hflag ih =>
    rw [skipFlags_cons hfill, if_neg hleft, if_pos hflag] at ht
    obtain ⟨f', hset⟩ := Option.isSome_iff_exists.mp ((set_isSome f x).mpr (.inr hflag))
    rw [flagLoop_step h hfill hset]
    obtain ⟨hleft', hat⟩ := ih h.read.next f' ht
    refine ⟨hleft'.trans ?_, hat⟩
    rw [set_left hset, decide_eq_false hleft, Bool.or_false]
  | case6 x t hfill hleft hflag =>
    rw [skipFlags_cons hfill, if_neg hleft, if_neg hflag] at ht
    cases ht
    have hset : f.set c.char = none := by
      rw [h.char, ← Option.not_isSome_iff_eq_none, set_isSome]
      exact not_or.mpr ⟨hleft, hflag⟩
    rw [flagLoop_stop (h.char ▸ hfill) hset]
    exact ⟨(Bool.or_false _).symm, h.read⟩

theorem Cursor.At.over_flagLoop (h : c.At L junk t) (f : Flags) (ht : skipFlags t = none) :
    (Locale.flagLoop c.rest f c.pos c.reads).2.Over L := by
  induction t using skipFlags.induct generalizing c f with
  | case1 => cases ht
  | case2 =>
    rw [flagLoop_fill h.rest]
    refine ⟨_, mem_flagLoop _ _, ?_⟩
    have := h.pos
    simp only [Cursor.next, Cursor.read, List.length_singleton] at this ⊢
    omega
  | case3 y t ih =>
    rw [flagLoop_fill h.rest]
    exact ih h.read.next.read.next { f with fill := y } ht
  | case4 t hne ih =>
    rw [skipFlags_cons hne, if_pos rfl, Option.map_eq_none_iff] at ht
    rw [flagLoop_step h hne rfl]
    exact ih h.read.next _ ht
  | case5 x t hfill hleft hflag ih =>
    rw [skipFlags_cons hfill, if_neg hleft, if_pos hflag] at ht
    obtain ⟨f', hset⟩ := Option.isSome_iff_exists.mp ((set_isSome f x).mpr (.inr hflag))
    rw [flagLoop_step h hfill hset]
    exact ih h.read.next f' ht
  | case6 x t hfill hleft hflag =>
    rw [skipFlags_cons hfill, if_neg hleft, if_neg hflag] at ht
    cases ht

theorem Cursor.At.directive (h : c.At L junk t) (ht : fields t = some (w, rp, t')) :
    ∃ c', c.directive = (w, rp, c') ∧ c'.At L junk t' := by
  obtain ⟨⟨left, u⟩, hflags, heq⟩ := Option.map_eq_some_iff.mp ht
  obtain ⟨hleft, hat⟩ := h.flagLoop {} hflags
  obtain ⟨hfw, hat⟩ := hat.digitLoop 0
  obtain ⟨hlp, hat⟩ := hat.field (by decide : '#' ≠ NUL) 0
  obtain ⟨hrp, hat⟩ := hat.field (by decide : '.' ≠ NUL) 2
  simp only [Prod.mk.injEq] at heq
  obtain ⟨rfl, rfl, rfl⟩ := heq
  refine ⟨_, ?_, hat⟩
  simp only [Cursor.directive, hfw, hlp, hrp, hleft, Bool.false_or]

theorem Cursor.At.over_directive (h : c.At L junk t) (ht : fields t = none) :
    c.directive.2.2.Over L := by
  have hover := h.over_flagLoop {} (Option.map_eq_none_iff.mp ht)
  exact hover.moves ((moves_digitLoop _ _ _ _).trans
    ((Cursor.moves_field _ _ _).trans (Cursor.moves_field _ _ _)))

end

end SceLibcPosix.Locale
