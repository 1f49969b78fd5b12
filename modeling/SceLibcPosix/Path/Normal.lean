import Mathlib.Data.List.TakeWhile
import SceLibcPosix.Path.Resolve

namespace SceLibcPosix.Path

open Errno Components

def pathRules : Rules Char where
  skip c := c = [] ∨ c = ['.']
  up c := c = ['.', '.']
  skip_nil := rfl

/-- The lexical normal form of what follows a drive. -/
def lexical (rest : List Char) : List Char :=
  if rest = [] then [] else rooted '/' (pathRules.normal [] (rest.splitOn '/'))

/-- The lexical normal form of a path with a drive. -/
def normalise (full : List Char) : List Char :=
  full.take (getDrive full) ++ lexical (full.drop (getDrive full))

/-- The components that the loop of `__resolve_path` has still to take. -/
def pending (left : List Char) (leftLen : ℕ) : List (List Char) :=
  if leftLen = 0 then [] else left.splitOn '/'

section

variable {cs : List (List Char)} {text token left : List Char} {leftLen : ℕ}

/-- What `__resolve_path` can do with one component after those of the stack `cs`. -/
inductive AppendOutcome (cs : List (List Char)) (token : List Char) : Appended → Prop
  | tooLong (buf : List Char) (h : PATH_MAX - 1 ≤ buf.length) :
    AppendOutcome cs token (.tooLong buf)
  | text (buf : List Char) (h : Pending '/' (pathRules.push cs token) buf)
    (hlen : buf.length < PATH_MAX) : AppendOutcome cs token (.text buf)

theorem appendToken_outcome (hcs : ∀ c ∈ cs, Proper '/' c)
    (hlen : (body '/' cs ++ ['/']).length < PATH_MAX) :
    AppendOutcome cs token (appendToken (body '/' cs ++ ['/']) token) := by
  unfold appendToken
  by_cases hnil : token = []
  · rw [if_pos hnil]
    refine .text _ ?_ hlen
    rw [Rules.push, if_pos (by simp [pathRules, hnil])]
    exact .slashed
  rw [if_neg hnil]
  by_cases hdot : token = ['.']
  · rw [if_pos hdot]
    refine .text _ ?_ hlen
    rw [Rules.push, if_pos (by simp [pathRules, hdot])]
    exact .slashed
  have hskip : ¬ pathRules.skip token = true := by simp [pathRules, hnil, hdot]
  rw [if_neg hdot]
  by_cases hup : token = ['.', '.']
  · have hpush : pathRules.push cs token = cs.dropLast := by
      rw [Rules.push, if_neg hskip, if_pos (by simp [pathRules, hup])]
    rw [if_pos hup]
    rcases List.eq_nil_or_concat' cs with rfl | ⟨cs', c, rfl⟩
    · rw [if_neg (by simp [body])]
      refine .text _ ?_ hlen
      rw [hpush]
      exact .slashed
    · have hc := (hcs c (by simp)).2
      rw [body_concat] at hlen ⊢
      rw [if_pos (by simp; omega), List.dropLast_concat, if_neg (by simp), cut_append hc]
      refine .text _ ?_ (by simp at hlen ⊢; omega)
      rw [hpush, List.dropLast_concat]
      exact .slashed
  · have hpush : pathRules.push cs token = cs ++ [token] := by
      rw [Rules.push, if_neg hskip, if_neg (by simp [pathRules, hup])]
    have htext : body '/' cs ++ ['/'] ++ token = body '/' (cs ++ [token]) := by
      rw [body_concat, List.append_assoc]
      rfl
    rw [if_neg hup]
    extract_lets full
    by_cases hlong : PATH_MAX ≤ full.length
    · rw [if_pos hlong]
      refine .tooLong _ ?_
      rw [List.length_take]
      omega
    · rw [if_neg hlong]
      refine .text _ ?_ (Nat.lt_of_not_le hlong)
      rw [hpush]
      rw [show full = body '/' (cs ++ [token]) from htext]
      exact .bare (by simp)

theorem append_outcome (token : List Char) (hcs : ∀ c ∈ cs, Proper '/' c) (ht : Pending '/' cs text)
    (hlen : text.length < PATH_MAX) : AppendOutcome cs token (append text token) := by
  unfold append
  cases ht with
  | bare hne =>
    obtain ⟨x, hx, hsep⟩ := getLast?_body hcs hne
    rw [hx]
    dsimp only
    rw [if_pos hsep]
    by_cases hlong : PATH_MAX ≤ (body '/' cs).length + 1
    · rw [if_pos hlong]
      exact .tooLong _ (by omega)
    · rw [if_neg hlong]
      exact appendToken_outcome hcs (by rw [List.length_append]; exact Nat.lt_of_not_le hlong)
  | slashed =>
    rw [List.getLast?_concat]
    dsimp only
    rw [if_neg (by simp)]
    exact appendToken_outcome hcs hlen

theorem stripSlash_pending (hcs : ∀ c ∈ cs, Proper '/' c) (ht : Pending '/' cs text) :
    stripSlash text = rooted '/' cs := by
  unfold stripSlash
  cases ht with
  | bare hne =>
    obtain ⟨x, hx, hsep⟩ := getLast?_body hcs hne
    rw [if_neg fun h ↦ hsep (Option.some.inj (hx.symm.trans h.2)), rooted, if_neg hne]
  | slashed =>
    rcases List.eq_nil_or_concat' cs with rfl | ⟨cs', c, rfl⟩
    · rfl
    · have hlong : 1 < (body '/' (cs' ++ [c]) ++ ['/']).length := by
        simp [body_concat]
        omega
      rw [if_pos ⟨hlong, List.getLast?_concat⟩, List.dropLast_concat, rooted, if_neg (by simp)]

/-- What the loop of `__resolve_path` can do with the components `ps` after the stack `cs`. It gives
up with a buffer that is full, or no text on its way has been too long. -/
inductive LoopOutcome (cs ps : List (List Char)) : Resolved → Prop
  | null (buf : List Char) (h : PATH_MAX - 1 ≤ buf.length) :
    LoopOutcome cs ps (.null ENAMETOOLONG buf)
  | path (h : ∀ qs, qs <+: ps → (rooted '/' (pathRules.normal cs qs)).length < PATH_MAX) :
    LoopOutcome cs ps (.path (rooted '/' (pathRules.normal cs ps)))

theorem LoopOutcome.cons {ps : List (List Char)} {res : Resolved}
    (h : LoopOutcome (pathRules.push cs token) ps res)
    (hlen : (rooted '/' cs).length < PATH_MAX) : LoopOutcome cs (token :: ps) res := by
  cases h with
  | null buf h => exact .null buf h
  | path h =>
    refine .path fun qs hqs ↦ ?_
    rcases List.prefix_cons_iff.mp hqs with rfl | ⟨qs', rfl, hqs'⟩
    · exact hlen
    · exact h qs' hqs'

theorem resolveLoop_zero (hcs : ∀ c ∈ cs, Proper '/' c) (ht : Pending '/' cs text)
    (hlen : text.length < PATH_MAX) : LoopOutcome cs [] (resolveLoop left 0 text) := by
  rw [resolveLoop, if_pos rfl, stripSlash_pending hcs ht]
  refine .path fun qs hqs ↦ ?_
  rw [List.prefix_nil.mp hqs]
  exact Nat.lt_of_le_of_lt ht.rooted_le hlen

theorem slash_notMem_token (left : List Char) : '/' ∉ left.takeWhile (· ≠ '/') := fun h ↦ by
  simpa using List.mem_takeWhile_imp h

theorem split_slash (h : '/' ∈ left) : ∃ rest, left.dropWhile (· ≠ '/') = '/' :: rest ∧
    left.length = (left.takeWhile (· ≠ '/')).length + rest.length + 1 ∧
    left.splitOn '/' = left.takeWhile (· ≠ '/') :: rest.splitOn '/' := by
  have hnot := slash_notMem_token left
  have heq : left.takeWhile (· ≠ '/') ++ left.dropWhile (· ≠ '/') = left :=
    List.takeWhile_append_dropWhile
  cases hdrop : left.dropWhile (· ≠ '/') with
  | nil =>
    rw [hdrop, List.append_nil] at heq
    rw [heq] at hnot
    exact absurd h hnot
  | cons x rest =>
    have hx : x = '/' := by
      have := List.head?_dropWhile_not (· ≠ '/') left
      rw [hdrop] at this
      simpa using this
    subst hx
    rw [hdrop] at heq
    refine ⟨rest, rfl, ?_, ?_⟩
    · have := congrArg List.length heq
      rw [List.length_append, List.length_cons] at this
      omega
    · rw [← List.splitOn_append_cons_self_of_not_mem hnot, heq]

theorem resolveLoop_outcome (hcs : ∀ c ∈ cs, Proper '/' c) (ht : Pending '/' cs text)
    (hlen : text.length < PATH_MAX) (hle : left.length ≤ leftLen) (hlt : leftLen < PATH_MAX) :
    LoopOutcome cs (pending left leftLen) (resolveLoop left leftLen text) := by
  induction hn : left.length + leftLen using Nat.strongRecOn
    generalizing cs text left leftLen with
  | _ n ih =>
    by_cases hzero : leftLen = 0
    · rw [hzero, pending, if_pos rfl]
      exact resolveLoop_zero hcs ht hlen
    have hrooted := Nat.lt_of_le_of_lt ht.rooted_le hlen
    rw [resolveLoop, pending, if_neg hzero, if_neg hzero]
    extract_lets token k
    have htoken : '/' ∉ token := slash_notMem_token left
    have hlength : token.length ≤ left.length := (List.takeWhile_sublist _).length_le
    have hk : k ≤ leftLen := by
      simp only [k]
      split <;> omega
    rw [if_neg (by omega)]
    have hout := append_outcome token hcs ht hlen
    generalize append text token = res at hout ⊢
    cases hout with
    | tooLong buf h => exact .null buf h
    | text buf h hbuf =>
      have hcs' := pathRules.push_proper hcs htoken
      dsimp only
      by_cases hslash : '/' ∈ left
      · obtain ⟨rest, hdrop, hrest, hsplit⟩ := split_slash hslash
        change left.length = token.length + rest.length + 1 at hrest
        have hktoken : k = token.length := if_pos hslash
        have hpending : pending rest (leftLen - k) = rest.splitOn '/' := if_neg (by omega)
        rw [if_pos hslash, hdrop, hsplit, ← hpending]
        refine LoopOutcome.cons ?_ hrooted
        exact ih (rest.length + (leftLen - k)) (by omega) hcs' h hbuf (by omega) (by omega) rfl
      · have hktoken : k = leftLen := if_neg hslash
        have hwhole : token = left :=
          List.takeWhile_eq_self_iff.mpr fun x hx ↦ decide_eq_true fun h' ↦ hslash (h' ▸ hx)
        rw [if_neg hslash, hktoken, Nat.sub_self, List.splitOn_eq_singleton hslash, ← hwhole]
        exact LoopOutcome.cons (resolveLoop_zero hcs' h hbuf) hrooted

end

end SceLibcPosix.Path
