/-
Text files read line by line: `fgets`, `strstr`, `atoi`.

`fgets n s` is one read of at most `n` bytes: up to and with the next newline, and what is left. `lines size s` are the
strings that successive calls with a buffer of `size` bytes give until the end of the file. `strstr` looks for a text
anywhere in another, `atoi` reads a number at the front and gives 0 when there is none.

- `lines_cons`, `lines_last`: a line that fits the buffer is read as one;
- `strstr_snoc`: a byte that the text does not hold, at the end, makes no difference;
- `atoi_decimal`: a printed number is read back.
-/
import NetSec.Core.Text

namespace NetSec.Text

/-- one line, of at most `n` bytes, and the rest -/
def fgets : ℕ → Text → Text × Text
  | 0, s => ([], s)
  | _ + 1, [] => ([], [])
  | n + 1, c :: s => if c = '\n' then ([c], s) else (c :: (fgets n s).1, (fgets n s).2)

def linesFrom (size : ℕ) : ℕ → Text → List Text
  | 0, _ => []
  | fuel + 1, s => if s = [] then [] else (fgets (size - 1) s).1 :: linesFrom size fuel (fgets (size - 1) s).2

/-- what successive reads give; there are at most as many as there are bytes -/
def lines (size : ℕ) (s : Text) : List Text := linesFrom size s.length s

def strstr (buff text : Text) : Bool := text <:+: buff

def atoi (s : Text) : ℤ := (scanInt s).elim 0 Prod.fst

/-! ## Reading a file -/

theorem fgets_append (n : ℕ) (s : Text) : (fgets n s).1 ++ (fgets n s).2 = s := by
  induction n generalizing s with
  | zero => rfl
  | succ n ih =>
    cases s with
    | nil => rfl
    | cons c s =>
      simp only [fgets]
      split_ifs
      · rfl
      · rw [List.cons_append, ih]

theorem fgets_length_lt {n : ℕ} (hn : 0 < n) {s : Text} (hs : s ≠ []) : (fgets n s).2.length < s.length := by
  cases n with
  | zero => omega
  | succ n =>
    cases s with
    | nil => exact absurd rfl hs
    | cons c s =>
      have happend := congrArg List.length (fgets_append n s)
      simp only [fgets]
      split_ifs
      · simp
      · simp only [List.length_append] at happend
        simp only [List.length_cons]
        omega

/-- calls beyond the end of the file change nothing -/
theorem linesFrom_congr {size : ℕ} (hsize : 2 ≤ size) {fuel fuel' : ℕ} {s : Text} (h : s.length ≤ fuel)
    (h' : s.length ≤ fuel') : linesFrom size fuel s = linesFrom size fuel' s := by
  induction fuel generalizing fuel' s with
  | zero =>
    obtain rfl : s = [] := List.length_eq_zero_iff.1 (by omega)
    cases fuel' <;> rfl
  | succ fuel ih =>
    by_cases hs : s = []
    · subst hs
      cases fuel' <;> rfl
    · have hlt := fgets_length_lt (n := size - 1) (by omega) hs
      cases fuel' with
      | zero => exact absurd (List.length_eq_zero_iff.1 (by omega)) hs
      | succ fuel' =>
        simp only [linesFrom, if_neg hs]
        exact congrArg _ (ih (by omega) (by omega))

/-- one call and the ones after it -/
theorem lines_eq {size : ℕ} (hsize : 2 ≤ size) {s : Text} (hs : s ≠ []) :
    lines size s = (fgets (size - 1) s).1 :: lines size (fgets (size - 1) s).2 := by
  have hlt := fgets_length_lt (n := size - 1) (by omega) hs
  rw [lines, linesFrom_congr hsize le_rfl (Nat.le_succ s.length), linesFrom, if_neg hs,
    linesFrom_congr hsize hlt.le le_rfl]
  rfl

theorem fgets_line {n : ℕ} {l : Text} (hl : '\n' ∉ l) (hlen : l.length < n) (s : Text) :
    fgets n (l ++ '\n' :: s) = (l ++ ['\n'], s) := by
  induction l generalizing n with
  | nil =>
    cases n with
    | zero => simp at hlen
    | succ n => simp [fgets]
  | cons c l ih =>
    cases n with
    | zero => simp at hlen
    | succ n =>
      obtain ⟨hc, hl⟩ := List.ne_and_not_mem_of_not_mem_cons hl
      simp only [List.length_cons, Nat.add_lt_add_iff_right] at hlen
      simp only [List.cons_append, fgets, if_neg (Ne.symm hc), ih hl hlen]

theorem fgets_last {n : ℕ} {l : Text} (hl : '\n' ∉ l) (hlen : l.length ≤ n) : fgets n l = (l, []) := by
  induction l generalizing n with
  | nil => cases n <;> rfl
  | cons c l ih =>
    cases n with
    | zero => simp at hlen
    | succ n =>
      obtain ⟨hc, hl⟩ := List.ne_and_not_mem_of_not_mem_cons hl
      simp only [List.length_cons, Nat.add_le_add_iff_right] at hlen
      simp only [fgets, if_neg (Ne.symm hc), ih hl hlen]

/-- **A line that fits the buffer is read as one.** -/
theorem lines_cons {size : ℕ} {l : Text} (hl : '\n' ∉ l) (hlen : l.length + 2 ≤ size) (s : Text) :
    lines size (l ++ '\n' :: s) = (l ++ ['\n']) :: lines size s := by
  rw [lines_eq (by omega) (by simp), fgets_line hl (by omega)]

/-- the last line, with no newline after it -/
theorem lines_last {size : ℕ} {l : Text} (hne : l ≠ []) (hl : '\n' ∉ l) (hlen : l.length + 2 ≤ size) :
    lines size l = [l] := by
  rw [lines_eq (by omega) hne, fgets_last hl (by omega)]
  rfl

/-! ## Searching a line -/

theorem strstr_iff {buff text : Text} : strstr buff text = true ↔ text <:+: buff := decide_eq_true_iff

theorem strstr_snoc {buff text : Text} {c : Char} (hne : text ≠ []) (hc : c ∉ text) :
    strstr (buff ++ [c]) text = strstr buff text := by
  rw [Bool.eq_iff_iff, strstr_iff, strstr_iff, List.infix_concat_iff]
  apply or_iff_right
  intro ⟨front, hfront⟩
  have hlast := congrArg List.getLast? hfront
  rw [List.getLast?_append_of_ne_nil front hne] at hlast
  exact hc (List.mem_of_getLast? (by simpa using hlast))

/-- a text that holds a byte is not found in one that does not -/
theorem strstr_of_mem {buff text : Text} {c : Char} (hc : c ∈ text) (hbuff : c ∉ buff) : strstr buff text = false := by
  rw [← Bool.not_eq_true, strstr_iff]
  exact fun h => hbuff (h.mem hc)

theorem strstr_self (text : Text) : strstr text text = true := strstr_iff.2 (List.infix_refl text)

theorem atoi_decimal (n : ℕ) (rest : Text) (h : ∀ c ∈ rest.head?, c.isDigit = false) :
    atoi (decimal n ++ rest) = n := by
  simp only [atoi, scanInt_decimal n rest h, Option.elim_some]

end NetSec.Text
