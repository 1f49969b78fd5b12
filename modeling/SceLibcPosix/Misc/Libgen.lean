import Mathlib.Data.Bool.AllAny
import Mathlib.Data.List.DropRight
import SceLibcPosix.Lib.Components

namespace SceLibcPosix.Misc

open Components

/-- A string of the C language, without its terminator. -/
structure CString where
  chars : List Char
  nul : '\x00' ∉ chars

/-- A pointer that `dirname` or `basename` returns: to a constant, or into the array of their
argument, with what that holds then. -/
inductive Result
  | constant (text : List Char)
  | within (offset : ℕ) (mem : List Char)
deriving DecidableEq, Repr

def Result.text : Result → List Char
  | constant text => text
  | within offset mem => (mem.drop offset).takeWhile (· ≠ '\x00')

def CString.mem (s : CString) : List Char := s.chars ++ ['\x00']

/-- One of the loops of `dirname` from index `i` down, if it does not return at the first
character. -/
def scanBack (q : Char → Bool) (mem : List Char) : ℕ → Option ℕ
  | 0 => if q (mem.getD 0 '\x00') then none else some 0
  | i + 1 => if q (mem.getD (i + 1) '\x00') then scanBack q mem i else some (i + 1)

def dirname : Option CString → Result
  | none => .constant ['.']
  | some s =>
    if s.chars = [] then .constant ['.'] else
    match scanBack (· = '/') s.mem (s.chars.length - 1) with
    | none => .constant ['/']
    | some i =>
      match scanBack (· ≠ '/') s.mem i with
      | none => .constant ['.']
      | some i =>
        match scanBack (· = '/') s.mem i with
        | none => .constant ['/']
        | some i => .within 0 (s.mem.set (i + 1) '\x00')

/-- The first loop of `basename`: it clears the slashes from `p` down, and returns at the first
character. -/
def clearBack (mem : List Char) : ℕ → Option ℕ × List Char
  | 0 => if mem.getD 0 '\x00' = '/' then (none, mem) else (some 0, mem)
  | p + 1 =>
    if mem.getD (p + 1) '\x00' = '/' then clearBack (mem.set (p + 1) '\x00') p
    else (some (p + 1), mem)

/-- The second loop of `basename`, with `p + 1` for `p`. -/
def baseStart (mem : List Char) : ℕ → ℕ
  | 0 => 0
  | p + 1 => if mem.getD p '\x00' ≠ '/' then baseStart mem p else p + 1

def basename : Option CString → Result
  | none => .constant ['.']
  | some s =>
    if s.chars = [] then .constant ['.'] else
    match clearBack s.mem (s.chars.length - 1) with
    | (none, mem) => .within 0 mem
    | (some p, mem) => .within (baseStart mem (p + 1)) mem

/-- The pointer is to a constant, or to a string that ends in the array of `s`. -/
def Result.InBounds (s : CString) : Result → Prop
  | constant _ => True
  | within offset mem => mem.length = s.mem.length ∧ '\x00' ∈ mem.drop offset

section Scan

variable {q : Char → Bool} {l p w mem : List Char} {s : CString}

theorem scanBack_step (n : ℕ) : scanBack q mem n = if q (mem.getD n '\x00')
    then if n = 0 then none else scanBack q mem (n - 1) else some n := by
  cases n with
  | zero => rfl
  | succ n => rfl

theorem scanBack_eq (hl : l ≠ []) : scanBack q (l ++ w) (l.length - 1) =
    if l.rdropWhile q = [] then none else some ((l.rdropWhile q).length - 1) := by
  induction l using List.reverseRecOn generalizing w with
  | nil => exact absurd rfl hl
  | append_singleton l c ih =>
    have hget : (l ++ [c] ++ w).getD l.length '\x00' = c := by simp
    rw [List.length_append, List.length_singleton, Nat.add_sub_cancel, scanBack_step, hget]
    by_cases hc : q c = true
    · rw [if_pos hc, List.rdropWhile_concat_pos _ _ _ hc]
      by_cases hl : l = []
      · rw [hl]
        rfl
      · rw [if_neg (mt List.length_eq_zero_iff.mp hl), List.append_assoc]
        exact ih hl
    · rw [if_neg hc, List.rdropWhile_concat_neg _ _ _ hc, if_neg (by simp), List.length_append,
        List.length_singleton, Nat.add_sub_cancel]

theorem clearBack_step (n : ℕ) : clearBack mem n = if mem.getD n '\x00' = '/'
    then if n = 0 then (none, mem) else clearBack (mem.set n '\x00') (n - 1)
    else (some n, mem) := by
  cases n with
  | zero => rfl
  | succ n => rfl

/-- The first loop of `basename` clears what it passes, but for the first character. -/
theorem clearBack_eq (hl : l ≠ []) : clearBack (l ++ w) (l.length - 1) =
    if l.rdropWhile (· = '/') = [] then
      (none, '/' :: (List.replicate (l.length - 1) '\x00' ++ w))
    else (some ((l.rdropWhile (· = '/')).length - 1), l.rdropWhile (· = '/') ++
      (List.replicate (l.length - (l.rdropWhile (· = '/')).length) '\x00' ++ w)) := by
  induction l using List.reverseRecOn generalizing w with
  | nil => exact absurd rfl hl
  | append_singleton l c ih =>
    have hget : (l ++ [c] ++ w).getD l.length '\x00' = c := by simp
    have hset : (l ++ [c] ++ w).set l.length '\x00' = l ++ '\x00' :: w := by simp
    have hcat (n : ℕ) : List.replicate n '\x00' ++ '\x00' :: w =
        List.replicate (n + 1) '\x00' ++ w := by
      rw [List.replicate_succ', List.append_assoc, List.singleton_append]
    rw [List.length_append, List.length_singleton, Nat.add_sub_cancel, clearBack_step, hget, hset]
    by_cases hc : c = '/'
    · rw [if_pos hc, List.rdropWhile_concat_pos _ _ _ (by simp [hc])]
      by_cases hl : l = []
      · rw [hl, hc]
        rfl
      · have hpos := List.length_pos_iff.mpr hl
        have hle := (List.rdropWhile_prefix (fun c ↦ decide (c = '/')) (l := l)).length_le
        rw [if_neg (mt List.length_eq_zero_iff.mp hl), ih hl, hcat, hcat, Nat.sub_add_cancel hpos,
          ← Nat.sub_add_comm hle]
    · rw [if_neg hc, List.rdropWhile_concat_neg _ _ _ (by simp [hc]), if_neg (by simp)]
      simp

theorem baseStart_eq (l w : List Char) :
    baseStart (l ++ w) l.length = (l.rdropWhile (· ≠ '/')).length := by
  induction l using List.reverseRecOn generalizing w with
  | nil => rfl
  | append_singleton l c ih =>
    have hget : (l ++ [c] ++ w).getD l.length '\x00' = c := by simp
    rw [List.length_append, List.length_singleton, baseStart, hget]
    by_cases hc : c = '/'
    · rw [if_neg (by simp [hc]), List.rdropWhile_concat_neg _ _ _ (by simp [hc])]
      simp
    · rw [if_pos hc, List.rdropWhile_concat_pos _ _ _ (by simp [hc]), List.append_assoc]
      exact ih _

/-- What is left of a path without the slashes at its end. -/
def trimmed (p : List Char) : List Char := p.rdropWhile (· = '/')

/-- The part of a path before its last component. -/
def parent (p : List Char) : List Char := (trimmed p).rdropWhile (· ≠ '/')

def leaf (p : List Char) : List Char := (trimmed p).rtakeWhile (· ≠ '/')

theorem dirname_eq (hs : s.chars ≠ []) : dirname (some s) =
    if trimmed s.chars = [] then .constant ['/'] else if parent s.chars = [] then .constant ['.']
    else if trimmed (parent s.chars) = [] then .constant ['/']
    else .within 0 (s.mem.set (trimmed (parent s.chars)).length '\x00') := by
  obtain ⟨w, hw⟩ := List.rdropWhile_prefix (fun c ↦ decide (c = '/')) (l := s.chars)
  obtain ⟨w', hw'⟩ := List.rdropWhile_prefix (fun c ↦ decide (c ≠ '/')) (l := trimmed s.chars)
  have hpath : s.mem = trimmed s.chars ++ (w ++ ['\x00']) := by
    rw [← List.append_assoc, trimmed, hw]
    rfl
  have hdir : s.mem = parent s.chars ++ (w' ++ (w ++ ['\x00'])) := by
    rw [← List.append_assoc, parent, hw', ← hpath]
  have hlast (l : List Char) (h : l ≠ []) : l.length - 1 + 1 = l.length :=
    Nat.sub_add_cancel (List.length_pos_iff.mpr h)
  have h1 : scanBack (· = '/') s.mem (s.chars.length - 1) =
      if trimmed s.chars = [] then none else some ((trimmed s.chars).length - 1) := scanBack_eq hs
  rw [dirname, if_neg hs, h1]
  by_cases hp : trimmed s.chars = []
  · rw [if_pos hp, if_pos hp]
  · have h2 : scanBack (· ≠ '/') s.mem ((trimmed s.chars).length - 1) =
        if parent s.chars = [] then none else some ((parent s.chars).length - 1) := by
      rw [hpath]
      exact scanBack_eq hp
    rw [if_neg hp, if_neg hp]
    dsimp only
    rw [h2]
    by_cases hd : parent s.chars = []
    · rw [if_pos hd, if_pos hd]
    · have h3 : scanBack (· = '/') s.mem ((parent s.chars).length - 1) =
          if trimmed (parent s.chars) = [] then none
          else some ((trimmed (parent s.chars)).length - 1) := by
        rw [hdir]
        exact scanBack_eq hd
      rw [if_neg hd, if_neg hd]
      dsimp only
      rw [h3]
      by_cases ht : trimmed (parent s.chars) = []
      · rw [if_pos ht, if_pos ht]
      · rw [if_neg ht, if_neg ht]
        dsimp only
        rw [hlast _ ht]

theorem basename_eq (hs : s.chars ≠ []) : basename (some s) =
    if trimmed s.chars = [] then
      .within 0 ('/' :: (List.replicate (s.chars.length - 1) '\x00' ++ ['\x00']))
    else .within (parent s.chars).length (trimmed s.chars ++
      (List.replicate (s.chars.length - (trimmed s.chars).length) '\x00' ++ ['\x00'])) := by
  have h1 : clearBack s.mem (s.chars.length - 1) = if trimmed s.chars = [] then
      (none, '/' :: (List.replicate (s.chars.length - 1) '\x00' ++ ['\x00']))
    else (some ((trimmed s.chars).length - 1), trimmed s.chars ++
      (List.replicate (s.chars.length - (trimmed s.chars).length) '\x00' ++ ['\x00'])) :=
    clearBack_eq hs
  rw [basename, if_neg hs, h1]
  by_cases hp : trimmed s.chars = []
  · rw [if_pos hp, if_pos hp]
  · rw [if_neg hp, if_neg hp]
    dsimp only
    rw [Nat.sub_add_cancel (List.length_pos_iff.mpr hp), baseStart_eq]
    rfl

theorem takeWhile_nul (hl : '\x00' ∉ l) : (l ++ '\x00' :: w).takeWhile (· ≠ '\x00') = l := by
  have hall : ∀ c ∈ l, decide (c ≠ '\x00') = true := by
    intro c hc
    exact decide_eq_true fun h ↦ hl (h ▸ hc)
  rw [List.takeWhile_append_of_pos hall]
  simp

theorem mem_trimmed {c : Char} (h : c ∈ trimmed l) : c ∈ l :=
  (List.rdropWhile_prefix _ (l := l)).subset h

theorem trimmed_append (p : List Char) :
    ∃ w, (∀ c ∈ w, c = '/') ∧ p = trimmed p ++ w :=
  ⟨p.rtakeWhile (· = '/'), fun c hc ↦ by simpa using List.mem_rtakeWhile_imp hc,
    List.rdropWhile_append_rtakeWhile.symm⟩

theorem parent_append (p : List Char) : trimmed p = parent p ++ leaf p :=
  List.rdropWhile_append_rtakeWhile.symm

theorem leaf_proper (hp : trimmed p ≠ []) : Proper '/' (leaf p) := by
  constructor
  · intro h
    have hslash := List.rtakeWhile_eq_nil_iff.mp h hp
    have hnot := List.rdropWhile_last_not (fun c ↦ decide (c = '/')) p hp
    simp only [decide_eq_true_eq, not_not] at hslash hnot
    exact hnot hslash
  · intro h
    simpa using List.mem_rtakeWhile_imp h

theorem parent_slash (h : parent p ≠ []) : ∃ l, parent p = l ++ ['/'] := by
  have hlast := List.rdropWhile_last_not (fun c ↦ decide (c ≠ '/')) (trimmed p) h
  simp only [decide_eq_true_eq, not_not] at hlast
  exact ⟨(parent p).dropLast, by
    conv_lhs => rw [← List.dropLast_append_getLast h]
    exact congrArg (fun c ↦ (parent p).dropLast ++ [c]) hlast⟩

theorem components_trimmed (p : List Char) : components '/' (trimmed p) = components '/' p := by
  obtain ⟨w, hw, hpw⟩ := trimmed_append p
  conv_rhs => rw [hpw]
  rw [components_append_seps hw]

theorem components_path (hp : trimmed p ≠ []) :
    components '/' p = components '/' (parent p) ++ [leaf p] := by
  rw [← components_trimmed, parent_append, ← components_of_proper (leaf_proper hp)]
  by_cases h : parent p = []
  · rw [h]
    rfl
  · obtain ⟨l, hl⟩ := parent_slash h
    rw [hl, List.append_assoc, List.singleton_append, components_append_cons,
      components_append_seps (by simp)]

theorem head_trimmed (hp : trimmed p ≠ []) : (trimmed p).head? = p.head? := by
  obtain ⟨w, hw, hpw⟩ := trimmed_append p
  conv_rhs => rw [hpw]
  rw [List.head?_append_of_ne_nil _ hp]

theorem head_path (hp : trimmed p ≠ []) (h : parent p ≠ []) : p.head? = (parent p).head? := by
  rw [← head_trimmed hp, parent_append, List.head?_append_of_ne_nil _ h]

theorem trimmed_ne_nil (h : ∃ c ∈ p, c ≠ '/') : trimmed p ≠ [] := by
  obtain ⟨c, hc, hne⟩ := h
  intro hnil
  exact hne (by simpa using List.rdropWhile_eq_nil_iff.mp hnil c hc)

end Scan

/-- A path that is one component, without a slash before it. -/
def NoDirectory (p : List Char) : Prop := p.head? ≠ some '/' ∧ (components '/' p).length = 1

/-- `dirname` and `basename` take the path apart without losing a component. -/
structure Consistent (p : CString) (d b : Result) : Prop where
  dirname_inBounds : d.InBounds p
  basename_inBounds : b.InBounds p
  basename_proper : Proper '/' b.text
  dirname_end : d.text.getLast? = some '/' → d.text = ['/']
  together : ¬ NoDirectory p.chars →
    components '/' (d.text ++ '/' :: b.text) = components '/' p.chars
  rooted : (d.text ++ '/' :: b.text).head? = some '/' ↔ p.chars.head? = some '/'
  alone : NoDirectory p.chars → d.text = ['.'] ∧
    components '/' (d.text ++ '/' :: b.text) = ['.'] :: components '/' p.chars

section Consistent

variable {s : CString} {p : List Char}

def dirText (p : List Char) : List Char :=
  if parent p = [] then ['.'] else if trimmed (parent p) = [] then ['/'] else trimmed (parent p)

theorem chars_ne_nil (hp : trimmed p ≠ []) : p ≠ [] := by
  rintro rfl
  exact hp rfl

theorem mem_parent {c : Char} (h : c ∈ parent p) : c ∈ p := by
  apply mem_trimmed
  rw [parent_append]
  exact List.mem_append_left _ h

theorem dirname_text (hp : trimmed s.chars ≠ []) : (dirname (some s)).text = dirText s.chars ∧
    (dirname (some s)).InBounds s := by
  rw [dirname_eq (chars_ne_nil hp), if_neg hp, dirText]
  by_cases hd : parent s.chars = []
  · rw [if_pos hd, if_pos hd]
    exact ⟨rfl, trivial⟩
  · rw [if_neg hd, if_neg hd]
    by_cases ht : trimmed (parent s.chars) = []
    · rw [if_pos ht, if_pos ht]
      exact ⟨rfl, trivial⟩
    · rw [if_neg ht, if_neg ht]
      obtain ⟨w, -, hw⟩ := trimmed_append s.chars
      obtain ⟨v, -, hv⟩ := trimmed_append (parent s.chars)
      obtain ⟨c, r, hr⟩ : ∃ c r, v ++ (leaf s.chars ++ (w ++ ['\x00'])) = c :: r :=
        List.exists_cons_of_ne_nil (by simp)
      have hmem : s.mem = trimmed (parent s.chars) ++ c :: r := by
        rw [← hr, ← List.append_assoc, ← hv, ← List.append_assoc, ← parent_append,
          ← List.append_assoc, ← hw]
        rfl
      have hset : s.mem.set (trimmed (parent s.chars)).length '\x00' =
          trimmed (parent s.chars) ++ '\x00' :: r := by
        rw [hmem]
        simp
      rw [hset]
      refine ⟨takeWhile_nul fun h ↦ s.nul (mem_parent (mem_trimmed h)), ?_, by simp⟩
      rw [hmem]
      simp

theorem replicate_concat (k : ℕ) : List.replicate k '\x00' ++ ['\x00'] =
    '\x00' :: List.replicate k '\x00' := by
  rw [← List.replicate_succ', List.replicate_succ]

theorem basename_text (hp : trimmed s.chars ≠ []) : (basename (some s)).text = leaf s.chars ∧
    (basename (some s)).InBounds s := by
  have hle : (trimmed s.chars).length ≤ s.chars.length := by
    obtain ⟨w, -, hw⟩ := trimmed_append s.chars
    conv_rhs => rw [hw]
    simp
  have hnul : '\x00' ∉ leaf s.chars := by
    intro h
    apply s.nul
    apply mem_trimmed
    rw [parent_append]
    exact List.mem_append_right _ h
  rw [basename_eq (chars_ne_nil hp), if_neg hp, replicate_concat]
  refine ⟨?_, ?_, ?_⟩
  · rw [Result.text, parent_append, List.append_assoc, List.drop_left]
    exact takeWhile_nul hnul
  · simp only [CString.mem, List.length_append, List.length_cons, List.length_replicate,
      List.length_nil]
    omega
  · rw [parent_append, List.append_assoc, List.drop_left]
    simp

theorem noDirectory_iff (hp : trimmed p ≠ []) : NoDirectory p ↔ parent p = [] := by
  have hlength := congrArg List.length (components_path hp)
  rw [List.length_append, List.length_singleton] at hlength
  constructor
  · intro ⟨hroot, hone⟩
    by_contra h
    obtain ⟨v, hv, hpv⟩ := trimmed_append (parent p)
    by_cases ht : trimmed (parent p) = []
    · obtain ⟨c, r, hr⟩ := List.exists_cons_of_ne_nil h
      rw [head_path hp h, hr] at hroot
      rw [ht, List.nil_append] at hpv
      exact hroot (congrArg some (hv c (hpv ▸ hr ▸ List.mem_cons_self)))
    · have hdir := congrArg List.length (components_path ht)
      rw [List.length_append, List.length_singleton] at hdir
      omega
  · intro h
    rw [h] at hlength
    refine ⟨fun hroot ↦ ?_, hlength⟩
    rw [← head_trimmed hp, parent_append, h, List.nil_append] at hroot
    exact (leaf_proper hp).2 (List.mem_of_head? hroot)

theorem components_dirText (h : parent p ≠ []) :
    components '/' (dirText p) = components '/' (parent p) := by
  rw [dirText, if_neg h, ← components_trimmed (parent p)]
  split
  · next ht =>
    rw [ht]
    decide
  · rfl

theorem head_dirText (hp : trimmed p ≠ []) : (dirText p).head? = some '/' ↔ p.head? = some '/' := by
  by_cases hd : parent p = []
  · have hnot := ((noDirectory_iff hp).mpr hd).1
    rw [dirText, if_pos hd]
    exact iff_of_false (by decide) hnot
  · rw [dirText, if_neg hd, head_path hp hd]
    split
    · next ht =>
      obtain ⟨v, hv, hpv⟩ := trimmed_append (parent p)
      obtain ⟨c, r, hr⟩ := List.exists_cons_of_ne_nil hd
      rw [ht, List.nil_append] at hpv
      rw [hr, List.head?_cons, hv c (hpv ▸ hr ▸ List.mem_cons_self)]
      rfl
    · next ht => rw [head_trimmed ht]

theorem dirText_ne_nil : dirText p ≠ [] := by
  unfold dirText
  split
  · simp
  · split
    · simp
    · next ht => exact ht

theorem dirText_end (h : (dirText p).getLast? = some '/') : dirText p = ['/'] := by
  unfold dirText at h ⊢
  split
  · next hd =>
    rw [if_pos hd] at h
    exact absurd h (by decide)
  · next hd =>
    rw [if_neg hd] at h
    split
    · rfl
    · next ht =>
      rw [if_neg ht, List.getLast?_eq_some_getLast ht] at h
      have hlast := List.rdropWhile_last_not (fun c ↦ decide (c = '/')) (parent p) ht
      simp only [decide_eq_true_eq] at hlast
      exact absurd (Option.some.inj h) hlast

theorem consistent_of (h : ∃ c ∈ s.chars, c ≠ '/') :
    Consistent s (dirname (some s)) (basename (some s)) := by
  have hp := trimmed_ne_nil h
  obtain ⟨hd, hdin⟩ := dirname_text hp
  obtain ⟨hb, hbin⟩ := basename_text hp
  have hproper := leaf_proper hp
  have htogether : components '/' (dirText s.chars ++ '/' :: leaf s.chars) =
      components '/' (dirText s.chars) ++ [leaf s.chars] := by
    rw [components_append_cons, components_of_proper hproper]
  refine
    { dirname_inBounds := hdin
      basename_inBounds := hbin
      basename_proper := hb ▸ hproper
      dirname_end := hd ▸ dirText_end
      together := ?_
      rooted := ?_
      alone := ?_ }
  · intro hdir
    rw [hd, hb, htogether, components_dirText (mt (noDirectory_iff hp).mpr hdir),
      components_path hp]
  · rw [hd, hb, List.head?_append_of_ne_nil _ dirText_ne_nil]
    exact head_dirText hp
  · intro hdir
    have hnil := (noDirectory_iff hp).mp hdir
    have hdot : dirText s.chars = ['.'] := if_pos hnil
    rw [hd, hb, htogether, components_path hp, hnil, hdot]
    exact ⟨rfl, rfl⟩

theorem slashes_text (hs : s.chars ≠ []) (h : ∀ c ∈ s.chars, c = '/') :
    (dirname (some s)).text = ['/'] ∧ (basename (some s)).text = ['/'] ∧
      (dirname (some s)).InBounds s ∧ (basename (some s)).InBounds s := by
  have hnil : trimmed s.chars = [] :=
    List.rdropWhile_eq_nil_iff.mpr fun c hc ↦ by simpa using h c hc
  have hpos := List.length_pos_iff.mpr hs
  rw [dirname_eq hs, if_pos hnil, basename_eq hs, if_pos hnil, replicate_concat]
  have htext : Result.text (.within 0 ('/' :: '\x00' :: List.replicate (s.chars.length - 1) '\x00'))
      = ['/'] := takeWhile_nul (l := ['/']) (by decide)
  refine ⟨rfl, htext, trivial, ?_, by simp⟩
  simp only [CString.mem, List.length_append, List.length_cons, List.length_replicate,
    List.length_nil]
  omega

end Consistent

/-- `dirname` and `basename` split every path that has a component, and leave the root alone. -/
theorem dirname_basename :
    (∀ s : CString, (∃ c ∈ s.chars, c ≠ '/') →
      Consistent s (dirname (some s)) (basename (some s))) ∧
    ∀ s : CString, s.chars ≠ [] → (∀ c ∈ s.chars, c = '/') →
      (dirname (some s)).text = ['/'] ∧ (basename (some s)).text = ['/'] ∧
        (dirname (some s)).InBounds s ∧ (basename (some s)).InBounds s :=
  ⟨fun _ ↦ consistent_of, fun _ ↦ slashes_text⟩

theorem dirname_basename_path :
    Consistent ⟨"usr//lib/".toList, by decide⟩ (dirname (some ⟨"usr//lib/".toList, by decide⟩))
      (basename (some ⟨"usr//lib/".toList, by decide⟩)) ∧
    (dirname (some ⟨"//".toList, by decide⟩)).text = ['/'] :=
  ⟨dirname_basename.1 ⟨"usr//lib/".toList, by decide⟩ ⟨'u', by decide, by decide⟩,
    (dirname_basename.2 ⟨"//".toList, by decide⟩ (by decide)
      (List.all_iff_forall_prop.mp (by decide))).1⟩

end SceLibcPosix.Misc
