import SceLibcPosix.Path.Touches

namespace SceLibcPosix.Path

open Components Logs

section

variable {resolved nextToken left text cwd path src : List Char} {leftLen d n : ℕ} {b : Buffer}
  {first last : ℤ} {α : Type} {x : Traced α}

theorem inBounds_touch : (touch b first last).All Touch.InBounds ↔
    (first ≤ last → 0 ≤ first ∧ last < PATH_MAX) :=
  Logged.all_tell.trans List.forall_mem_singleton

theorem differ_le (s s' : List Char) : differ s s' ≤ s.length := by
  unfold differ
  refine (List.takeWhile_sublist _).length_le.trans ?_
  rw [List.length_zip]
  exact Nat.min_le_left _ _

theorem inBounds_after {y : Traced α} (h : first ≤ last → 0 ≤ first ∧ last < PATH_MAX)
    (hy : y.All Touch.InBounds) : (touch b first last >>= fun _ ↦ y).All Touch.InBounds :=
  Logged.all_bind.mpr ⟨inBounds_touch.mpr h, hy⟩

theorem inBounds_ite {c : Prop} [Decidable c] {y : Traced α} (hx : c → x.All Touch.InBounds)
    (hy : ¬ c → y.All Touch.InBounds) : (if c then x else y).All Touch.InBounds := by
  split
  · next h => exact hx h
  · next h => exact hy h

theorem cut_initial (l : List Char) : cut '/' l <+: l := by
  rw [cut, ← List.reverse_suffix, List.reverse_reverse]
  exact List.dropWhile_suffix _

theorem cut_head? {l : List Char} (h : '/' ∈ l) : (cut '/' l).head? = l.head? := by
  obtain ⟨t, ht⟩ := cut_initial l
  have hne : cut '/' l ≠ [] := by
    intro hnil
    rw [cut, List.reverse_eq_nil_iff, List.dropWhile_eq_nil_iff] at hnil
    simpa using hnil '/' (List.mem_reverse.mpr h)
  conv_rhs => rw [← ht]
  rw [List.head?_append_of_ne_nil _ hne]

/-- A text that `__resolve_path` builds: it starts at the root and fits. -/
structure Building (resolved : List Char) : Prop where
  root : resolved.head? = some '/'
  fits : resolved.length < PATH_MAX

theorem Building.pos (h : Building resolved) : 0 < resolved.length := by
  obtain ⟨rest, rfl⟩ := List.head?_eq_some_iff.mp h.root
  simp

theorem Building.slash_mem (h : Building resolved) (hlong : 1 < resolved.length) :
    '/' ∈ resolved.dropLast := by
  obtain ⟨rest, rfl⟩ := List.head?_eq_some_iff.mp h.root
  cases rest with
  | nil => simp at hlong
  | cons x rest => simp

theorem Building.cut (h : Building resolved) (hlong : 1 < resolved.length) :
    Building (cut '/' resolved.dropLast) := by
  have hmem := h.slash_mem hlong
  refine ⟨?_, ?_⟩
  · rw [cut_head? hmem]
    obtain ⟨rest, rfl⟩ := List.head?_eq_some_iff.mp h.root
    cases rest with
    | nil => simp at hlong
    | cons x rest => rfl
  · have := (cut_initial resolved.dropLast).length_le
    have := h.fits
    rw [List.length_dropLast] at *
    omega

theorem Building.slashed (h : Building resolved) (hlong : ¬ PATH_MAX ≤ resolved.length + 1) :
    Building (resolved ++ ['/']) := by
  refine ⟨?_, ?_⟩
  · rw [List.head?_append, h.root]
    rfl
  · rw [List.length_append]
    exact Nat.lt_of_not_le hlong

/-- The buffer after one component, also when it is full. -/
def Appended.Built : Appended → Prop
  | .undefined => False
  | .tooLong buf | .text buf => Building buf

/-- The buffer that `__resolve_path` leaves, also when it gives up. -/
def Resolved.Built : Resolved → Prop
  | .undefined => False
  | .null _ buf | .path buf => Building buf

theorem Building.appendToken (h : Building resolved) :
    (appendToken resolved nextToken).Built := by
  have hroot : (resolved ++ nextToken).head? = some '/' := by
    rw [List.head?_append, h.root]
    rfl
  unfold Path.appendToken
  dsimp only
  split_ifs with hnil hdot hup hlong hno hfull
  · exact h
  · exact h
  · exact h.cut hlong
  · exact hno (h.slash_mem hlong)
  · exact h
  · refine ⟨?_, ?_⟩
    · rw [List.head?_take, if_neg (by decide), hroot]
    · rw [List.length_take]
      exact Nat.lt_of_le_of_lt (Nat.min_le_left _ _) (by decide)
  · exact ⟨hroot, Nat.lt_of_not_le hfull⟩

theorem Building.append (h : Building resolved) (nextToken : List Char) :
    (append resolved nextToken).Built := by
  unfold Path.append
  split
  · next hnone =>
    rw [List.getLast?_eq_none_iff] at hnone
    have hpos := h.pos
    rw [hnone] at hpos
    exact absurd hpos (lt_irrefl _)
  · split_ifs with hslash hlong
    · exact h
    · exact (h.slashed hlong).appendToken
    · exact h.appendToken

theorem Building.stripSlash (h : Building resolved) : Building (stripSlash resolved) := by
  unfold Path.stripSlash
  split_ifs with hlong
  · refine ⟨?_, ?_⟩
    · obtain ⟨rest, rfl⟩ := List.head?_eq_some_iff.mp h.root
      cases rest with
      | nil => exact absurd hlong.1 (by simp)
      | cons x rest => rfl
    · have := h.fits
      rw [List.length_dropLast]
      omega
  · exact h

theorem Building.resolveLoop (h : Building resolved) :
    (resolveLoop left leftLen resolved).Built := by
  induction hn : left.length + leftLen using Nat.strongRecOn
    generalizing left leftLen resolved with
  | _ m ih =>
    rw [Path.resolveLoop]
    by_cases hzero : leftLen = 0
    · rw [if_pos hzero]
      exact h.stripSlash
    rw [if_neg hzero]
    dsimp only
    by_cases hlong :
        PATH_MAX ≤ if '/' ∈ left then (left.takeWhile (· ≠ '/')).length else leftLen
    · rw [if_pos hlong]
      exact h
    · rw [if_neg hlong]
      have hbuilt := h.append (left.takeWhile (· ≠ '/'))
      generalize Path.append resolved (left.takeWhile (· ≠ '/')) = res at hbuilt ⊢
      cases res with
      | undefined => exact hbuilt
      | tooLong buf => exact hbuilt
      | text buf => exact ih _ (hn ▸ loop_shorter left hzero) hbuilt rfl

theorem Building.traceToken (h : Building resolved) (htoken : nextToken.length < PATH_MAX) :
    (traceToken resolved nextToken).All Touch.InBounds := by
  have hpos := h.pos
  have hfits := h.fits
  have hdot := differ_le nextToken ['.']
  have hup := differ_le nextToken ['.', '.']
  refine inBounds_after (by omega) (inBounds_ite (fun _ ↦ Logged.all_pure _) fun _ ↦ ?_)
  refine inBounds_after (by omega) (inBounds_ite (fun _ ↦ Logged.all_pure _) fun _ ↦ ?_)
  refine inBounds_after (by omega) (inBounds_ite (fun _ ↦ ?_) fun _ ↦ ?_)
  · refine inBounds_ite (fun hlong ↦ ?_) fun _ ↦ Logged.all_pure _
    refine inBounds_after (by omega) (inBounds_after (by omega) (inBounds_ite (fun hno ↦ ?_)
      fun _ ↦ ?_))
    · exact absurd (h.slash_mem hlong) hno
    · have hcut := (h.cut hlong).fits
      exact inBounds_after (by omega) (Logged.all_pure _)
  · refine inBounds_after (by omega) (inBounds_after (by omega) (inBounds_after (by omega)
      (inBounds_ite (fun _ ↦ Logged.all_pure _) fun _ ↦ Logged.all_pure _)))

theorem Building.traceAppend (h : Building resolved) (htoken : nextToken.length < PATH_MAX) :
    (traceAppend resolved nextToken).All Touch.InBounds := by
  have hpos := h.pos
  have hfits := h.fits
  refine inBounds_after (by omega) ?_
  cases hlast : resolved.getLast? with
  | none => exact Logged.all_pure _
  | some c =>
    refine inBounds_ite (fun _ ↦ inBounds_ite (fun _ ↦ Logged.all_pure _) fun hlong ↦ ?_)
      fun _ ↦ h.traceToken htoken
    exact inBounds_after (by omega) (inBounds_after (by omega)
      ((h.slashed hlong).traceToken htoken))

theorem Building.traceStrip (h : Building resolved) :
    (traceStrip resolved).All Touch.InBounds := by
  have hfits := h.fits
  exact inBounds_ite (fun _ ↦ inBounds_after (by omega) (Logged.all_pure _))
    fun _ ↦ Logged.all_pure _

theorem traceTake_inBounds_iff (hn : n ≤ leftLen) (hlen : leftLen < PATH_MAX) :
    (traceTake left leftLen n).All Touch.InBounds ↔ ('/' ∈ left → leftLen + 1 < PATH_MAX) := by
  unfold traceTake
  rw [Logged.all_bind, Logged.all_bind, Logged.all_bind, inBounds_touch, inBounds_touch,
    inBounds_touch]
  have htaken : ((n : ℤ) ≤ n → 0 ≤ (n : ℤ) ∧ (n : ℤ) < PATH_MAX) ∧
      ((0 : ℤ) ≤ n - 1 → (0 : ℤ) ≤ 0 ∧ (n : ℤ) - 1 < PATH_MAX) := by omega
  rw [and_iff_right htaken.2, and_iff_right htaken.2, and_iff_right htaken.1]
  by_cases h : '/' ∈ left
  · rw [if_pos h, Logged.all_bind, inBounds_touch, inBounds_touch, forall_prop_of_true h]
    constructor
    · intro hmove
      have := (hmove.1 (by omega)).2
      omega
    · intro hlt
      constructor
      · omega
      · omega
  · rw [if_neg h]
    exact iff_of_true (Logged.all_pure _) fun hmem ↦ absurd hmem h

theorem takeWhile_length_le (left : List Char) (hle : left.length ≤ leftLen) :
    (if '/' ∈ left then (left.takeWhile (· ≠ '/')).length else leftLen) ≤ leftLen := by
  have := (List.takeWhile_sublist (· ≠ '/') (l := left)).length_le
  split
  · omega
  · exact le_rfl

theorem loop_length (hle : left.length ≤ leftLen) (h : '/' ∈ left) :
    (left.dropWhile (· ≠ '/')).tail.length ≤ leftLen - (left.takeWhile (· ≠ '/')).length := by
  obtain ⟨rest, hdrop, hlength, -⟩ := split_slash h
  rw [hdrop, List.tail_cons]
  omega

/-- The loop stays inside the arrays exactly if the text that is left has no slash or does not fill
its array. -/
theorem traceLoop_inBounds_iff (h : Building resolved) (hle : leftLen ≠ 0 → left.length ≤ leftLen)
    (hlen : leftLen < PATH_MAX) : (traceLoop left leftLen resolved).All Touch.InBounds ↔
      ('/' ∈ left → leftLen + 1 < PATH_MAX) := by
  induction hn : left.length + leftLen using Nat.strongRecOn
    generalizing left leftLen resolved with
  | _ m ih =>
    rw [traceLoop]
    by_cases hzero : leftLen = 0
    · rw [if_pos hzero, hzero]
      exact iff_of_true (Logged.all_bind.mpr ⟨h.traceStrip, Logged.all_pure _⟩) fun _ ↦ by decide
    replace hle := hle hzero
    have hk := takeWhile_length_le left hle
    have htoken : (left.takeWhile (· ≠ '/')).length ≤ left.length :=
      (List.takeWhile_sublist _).length_le
    rw [if_neg hzero]
    dsimp only
    rw [Logged.all_bind, inBounds_touch, and_iff_right (by omega), if_neg (by omega),
      Logged.all_bind, traceTake_inBounds_iff hk hlen, Logged.all_bind, value_traceAppend,
      and_iff_right (h.traceAppend (by omega))]
    refine and_iff_left_of_imp fun hfree ↦ ?_
    have hbuilt := h.append (left.takeWhile (· ≠ '/'))
    generalize append resolved (left.takeWhile (· ≠ '/')) = res at hbuilt ⊢
    cases res with
    | undefined => exact Logged.all_pure _
    | tooLong buf => exact Logged.all_pure _
    | text buf =>
      refine (ih _ (hn ▸ loop_shorter left hzero) hbuilt ?_ (by omega) rfl).mpr ?_
      · intro hmore
        by_cases hslash : '/' ∈ left
        · rw [if_pos hslash, if_pos hslash]
          exact loop_length hle hslash
        · rw [if_neg hslash] at hmore
          omega
      · by_cases hslash : '/' ∈ left
        · have hlt := hfree hslash
          intro _
          omega
        · rw [if_neg hslash]
          exact fun hmem ↦ absurd hmem hslash

/-- Text that does not start at the root: `__resolve_path` reads the character before its buffer for
the first component. -/
theorem traceLoop_bare (hne : left ≠ []) (hlen : left.length < PATH_MAX) :
    ¬ (traceLoop left left.length []).All Touch.InBounds := by
  have hzero : left.length ≠ 0 := mt List.length_eq_zero_iff.mp hne
  have hk := takeWhile_length_le left le_rfl
  rw [traceLoop, if_neg hzero]
  dsimp only
  rw [Logged.all_bind, if_neg (by omega), Logged.all_bind, Logged.all_bind]
  rintro ⟨-, -, happend, -⟩
  rw [traceAppend, Logged.all_bind, inBounds_touch] at happend
  have hfirst := happend.1 (by omega)
  rw [List.length_nil] at hfirst
  omega

/-- The texts that make `__resolve_path` leave its arrays: those that fill `left` up to its last
character and have a slash there, and those that do not start with a slash. -/
def Overreads (text : List Char) : Prop :=
  if text.head? = some '/' then text.length = PATH_MAX ∧ '/' ∈ text.tail
  else text ≠ [] ∧ text.length < PATH_MAX

instance (text : List Char) : Decidable (Overreads text) :=
  inferInstanceAs (Decidable (if text.head? = some '/' then _ else _))

theorem traceRest_inBounds_iff : (traceRest left resolved).All Touch.InBounds ↔
    (left.length < PATH_MAX → (traceLoop left left.length resolved).All Touch.InBounds) := by
  rw [traceRest, Logged.all_bind, inBounds_touch, and_iff_right (by omega)]
  split
  · next h => exact iff_of_true (Logged.all_pure _) fun hlt ↦ absurd hlt (not_lt.mpr h)
  · next h => exact ⟨fun hloop _ ↦ hloop, fun hloop ↦ hloop (not_le.mp h)⟩

theorem traceResolve_inBounds_iff (text : List Char) :
    (traceResolve text).All Touch.InBounds ↔ ¬ Overreads text := by
  by_cases h : text.head? = some '/'
  · obtain ⟨left, rfl⟩ := List.head?_eq_some_iff.mp h
    rw [Overreads, if_pos h, List.tail_cons, List.length_cons]
    cases left with
    | nil => exact iff_of_true (inBounds_after (by decide) (Logged.all_pure _)) (by decide)
    | cons x left =>
      have hroot : Building ['/'] := ⟨rfl, by decide⟩
      change (touch .resolved 0 1 >>= fun _ ↦ traceRest (x :: left) ['/']).All _ ↔ _
      rw [Logged.all_bind, inBounds_touch, and_iff_right (by decide), traceRest_inBounds_iff]
      constructor
      · rintro hloop ⟨hlength, hslash⟩
        have := (traceLoop_inBounds_iff hroot (fun _ ↦ le_rfl) (by omega)).mp
          (hloop (by omega)) hslash
        omega
      · intro hno hlt
        refine (traceLoop_inBounds_iff hroot (fun _ ↦ le_rfl) hlt).mpr fun hslash ↦ ?_
        by_contra hfull
        exact hno ⟨by omega, hslash⟩
  · rw [Overreads, if_neg h, traceResolve_bare h, traceRest_inBounds_iff]
    cases text with
    | nil =>
      refine iff_of_true (fun _ ↦ ?_) fun hover ↦ hover.1 rfl
      rw [List.length_nil, traceLoop, if_pos rfl]
      exact Logged.all_bind.mpr ⟨Logged.all_pure _, Logged.all_pure _⟩
    | cons x left =>
      refine ⟨fun hloop hover ↦ traceLoop_bare hover.1 hover.2 (hloop hover.2), fun hno hlt ↦ ?_⟩
      exact absurd ⟨List.cons_ne_nil _ _, hlt⟩ hno

def Resolved.Fits : Resolved → Prop
  | .undefined => True
  | .null _ buf | .path buf => buf.length < PATH_MAX

theorem Resolved.Built.fits {res : Resolved} (h : res.Built) : res.Fits := by
  cases res with
  | undefined => exact h.elim
  | null errno buf => exact Building.fits h
  | path buf => exact Building.fits h

theorem resolvePath_fits (h : ¬ Overreads text) : (resolvePath text).Fits := by
  by_cases hslash : text.head? = some '/'
  · obtain ⟨left, rfl⟩ := List.head?_eq_some_iff.mp hslash
    have hroot : Building ['/'] := ⟨rfl, by decide⟩
    cases left with
    | nil => exact hroot.fits
    | cons x left =>
      change (if _ then _ else _ : Resolved).Fits
      split
      · exact hroot.fits
      · exact hroot.resolveLoop.fits
  · rw [Overreads, if_neg hslash] at h
    rw [resolvePath_bare hslash]
    split
    · exact Nat.zero_lt_succ _
    · next hlt =>
      obtain rfl : text = [] := by
        by_contra hne
        exact h ⟨hne, not_le.mp hlt⟩
      rw [List.length_nil, resolveLoop, if_pos rfl]
      exact Nat.zero_lt_succ _

theorem traceJoin_inBounds {res : Resolved} {reads : Traced Unit} (hres : res.Fits)
    (hreads : d < PATH_MAX → reads.All Touch.InBounds) :
    (traceJoin src d reads res).All Touch.InBounds := by
  cases res with
  | undefined => exact Logged.all_pure _
  | null errno buf | path buf =>
    have hbuf : buf.length < PATH_MAX := hres
    refine inBounds_after (by omega) (inBounds_ite (fun hfits ↦ ?_) fun _ ↦ Logged.all_pure _)
    refine Logged.all_bind.mpr ⟨hreads (by omega), ?_⟩
    refine inBounds_after (by omega) (inBounds_after (by omega) (inBounds_after (by omega) ?_))
    exact inBounds_after (by omega) (inBounds_after (by omega) (Logged.all_pure _))

theorem traceBranch_inBounds_iff {reads : Traced Unit}
    (hreads : d < PATH_MAX → reads.All Touch.InBounds) :
    (traceBranch text src d reads).All Touch.InBounds ↔ ¬ Overreads text := by
  rw [traceBranch, Logged.all_bind, traceResolve_inBounds_iff, value_traceResolve]
  exact and_iff_left_of_imp fun h ↦ traceJoin_inBounds (resolvePath_fits h) hreads

theorem traceFull_inBounds_iff (hne : path ≠ []) (hlt : cwd.length + path.length < PATH_MAX) :
    (traceFull cwd path).All Touch.InBounds ↔ cwd.length + 1 + path.length < PATH_MAX := by
  have hpos := List.length_pos_iff.mpr hne
  unfold traceFull
  simp only [Logged.all_bind, inBounds_touch]
  omega

/-- The calls of `__realpath` that leave the arrays: `__resolve_path` does so with the text after
the drive, or the current directory and the path fit only without the slash between them. -/
def OutOfBounds (alloc : Bool) (cwd : List Char) : Option (List Char) → Prop
  | none => False
  | some path => path ≠ [] ∧ alloc = true ∧
    if getDrive path ≠ 0 then Overreads (path.drop (getDrive path))
    else if path.head? = some '/' then Overreads path
    else
      let cwd := initCwd cwd
      let fullPath := cwd ++ '/' :: path
      cwd.length + path.length < PATH_MAX ∧ (cwd.length + 1 + path.length = PATH_MAX ∨
        Overreads (fullPath.drop (getDrive fullPath)))

theorem traceRelative_inBounds_iff (hne : path ≠ []) :
    (traceRelative cwd path).All Touch.InBounds ↔ ¬ (cwd.length + path.length < PATH_MAX ∧
      (cwd.length + 1 + path.length = PATH_MAX ∨
        Overreads ((cwd ++ '/' :: path).drop (getDrive (cwd ++ '/' :: path))))) := by
  rw [traceRelative]
  by_cases hlt : cwd.length + path.length < PATH_MAX
  · rw [if_pos hlt, and_iff_right hlt, Logged.all_bind, traceFull_inBounds_iff hne hlt]
    by_cases hfull : cwd.length + 1 + path.length < PATH_MAX
    · have hlength : (cwd ++ '/' :: path).length < PATH_MAX := by
        rw [List.length_append, List.length_cons]
        omega
      have hdrive := (List.takeWhile_sublist driveChar (l := cwd ++ '/' :: path)).length_le
      rw [and_iff_right hfull, if_neg (not_le.mpr hfull), or_iff_right (by omega)]
      dsimp only
      rw [Logged.all_bind, inBounds_touch, and_iff_right (by omega), Logged.all_bind,
        inBounds_touch, and_iff_right (by omega)]
      exact traceBranch_inBounds_iff fun hd ↦ inBounds_touch.mpr (by omega)
    · exact iff_of_false (fun h ↦ hfull h.1) (not_not.mpr (.inl (by omega)))
  · rw [if_neg hlt]
    exact iff_of_true (Logged.all_pure _) fun h ↦ hlt h.1

/-- `__realpath` and `__resolve_path` stay inside their arrays and use no null pointer, except in
the calls that are listed. -/
theorem realpath_inBounds_iff (alloc : Bool) (cwd : List Char) (path : Option (List Char)) :
    (traceRealpath alloc cwd path).All Touch.InBounds ↔ ¬ OutOfBounds alloc cwd path := by
  have hpaired (p : Traced Outcome) (cwd : List Char) :
      (p >>= fun out ↦ pure (out, cwd)).All Touch.InBounds ↔ p.All Touch.InBounds :=
    Logged.all_bind.trans (and_iff_left (Logged.all_pure _))
  cases path with
  | none => exact iff_of_true (Logged.all_pure _) id
  | some path =>
    rw [traceRealpath, OutOfBounds]
    by_cases hne : path = []
    · rw [if_pos (List.length_eq_zero_iff.mpr hne)]
      exact iff_of_true (Logged.all_pure _) fun h ↦ h.1 hne
    rw [if_neg (mt List.length_eq_zero_iff.mp hne), and_iff_right hne]
    cases alloc with
    | false => exact iff_of_true (Logged.all_pure _) fun h ↦ Bool.false_ne_true h.1
    | true =>
      rw [if_neg (by decide), and_iff_right rfl]
      dsimp only
      by_cases hd : getDrive path ≠ 0
      · rw [if_pos hd, if_pos hd, hpaired]
        exact traceBranch_inBounds_iff fun _ ↦ Logged.all_pure _
      rw [if_neg hd, if_neg hd]
      by_cases hslash : path.head? = some '/'
      · rw [if_pos hslash, if_pos hslash, hpaired]
        exact traceBranch_inBounds_iff fun _ ↦ Logged.all_pure _
      · rw [if_neg hslash, if_neg hslash, hpaired]
        exact traceRelative_inBounds_iff hne

/-- A drive without a slash: `resolved[-1]` is read for the first component. -/
theorem realpath_bare_drive :
    ¬ (traceRealpath true [] (some "ux0:data".toList)).All Touch.InBounds := by
  intro h
  rw [traceRealpath, if_neg (by decide), if_neg (by decide)] at h
  dsimp only at h
  rw [if_pos (by decide)] at h
  have hbranch := (Logged.all_bind.mp h).1
  rw [traceBranch_inBounds_iff fun _ ↦ Logged.all_pure _] at hbranch
  exact hbranch (by decide)

end

end SceLibcPosix.Path
