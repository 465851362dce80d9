/-
C strings: what `strlen`, `strtok`, `%d` and `sscanf` see.

A text is a list of characters, one for each byte. `cString` is the string a buffer holds (the bytes before the first
NUL). `strtokFrom d s` is one call of `strtok` with the one delimiter `d` on a scan position whose remaining text is
`s`: the token and the text that the save pointer is left on. `fields` makes the two calls in a row. `decimal` is `%d`
for a number that is not negative, `scanInt` and `scanDotted` are `sscanf` with `%d` and with `%d`s separated by dots.
`strip` and `parseInt` are `str.strip` and `int` of Python.

- `strtokFrom_some`: what a token is: after leading delimiters, up to the next delimiter or the end;
- `fields_length_le`, `fields_eq_of_length`: two tokens and their delimiter fit into the text, and fill it only when
  the text is exactly the two tokens around one delimiter;
- `fields_join`: of such a text the two calls give back the two tokens;
- `scanInt_decimal`, `scanDotted_cons`, `scanDotted_last`, `parseInt_decimal`: printed numbers are read back.
-/
import Mathlib.Data.List.DropRight
import Mathlib.Data.List.TakeWhile
import Mathlib.Tactic

namespace NetSec

/-- a C string or buffer, one character for each byte -/
abbrev Text := List Char

namespace Text

def nul : Char := Char.ofNat 0

/-- the string in a buffer: the bytes before the first NUL -/
def cString (buf : Text) : Text := buf.takeWhile (· ≠ nul)

theorem cString_length_le (buf : Text) : (cString buf).length ≤ buf.length :=
  (List.takeWhile_sublist _).length_le

theorem cString_eq_of_length {buf : Text} (h : (cString buf).length = buf.length) : cString buf = buf :=
  (List.takeWhile_prefix _).eq_of_length h

theorem forall_ne_of_not_mem {d : Char} {t : Text} (hd : d ∉ t) : ∀ c ∈ t, decide (c ≠ d) = true :=
  fun _ hc => decide_eq_true fun e => hd (e ▸ hc)

theorem cString_of_not_mem {buf : Text} (h : nul ∉ buf) : cString buf = buf :=
  List.takeWhile_eq_self_iff.2 (forall_ne_of_not_mem h)

/-! ## strtok -/

/-- one `strtok` call with delimiter `d` on the remaining text `s`: the token (NULL: `none`) and what is left -/
def strtokFrom (d : Char) (s : Text) : Option Text × Text :=
  let s := s.dropWhile (· = d)
  if s = [] then (none, [])
  else (some (s.takeWhile (· ≠ d)), (s.dropWhile (· ≠ d)).drop 1)

/-- the two calls `strtok(s, d)` and `strtok(NULL, d)` in a row -/
def fields (d : Char) (s : Text) : Option Text × Option Text :=
  ((strtokFrom d s).1, (strtokFrom d (strtokFrom d s).2).1)

theorem not_of_dropWhile_cons {α : Type} {p : α → Bool} {l cs : List α} {c : α} (h : l.dropWhile p = c :: cs) :
    p c = false := by
  have := List.head_dropWhile_not (l := l) p (by rw [h]; simp)
  simpa [h] using this

theorem strtokFrom_some {d : Char} {s t r : Text} (h : strtokFrom d s = (some t, r)) :
    ∃ lead, t ≠ [] ∧ d ∉ t ∧ ((s = lead ++ t ∧ r = []) ∨ s = lead ++ t ++ d :: r) := by
  simp only [strtokFrom] at h
  split_ifs at h with hs
  · simp at h
  simp only [Prod.mk.injEq, Option.some.injEq] at h
  obtain ⟨rfl, rfl⟩ := h
  set u := s.dropWhile (· = d) with hu
  have hsplit : s = s.takeWhile (· = d) ++ u := List.takeWhile_append_dropWhile.symm
  -- the first character after the leading delimiters is not a delimiter, so the token is not empty
  have hne : u.takeWhile (· ≠ d) ≠ [] := by
    cases hcase : u with
    | nil => exact absurd hcase hs
    | cons c cs =>
      have hc : c ≠ d := by simpa using not_of_dropWhile_cons (hu.symm.trans hcase)
      simp [hc]
  refine ⟨s.takeWhile (· = d), hne, fun hd => by simpa using List.mem_takeWhile_imp hd, ?_⟩
  have htok : u = u.takeWhile (· ≠ d) ++ u.dropWhile (· ≠ d) := List.takeWhile_append_dropWhile.symm
  cases hrest : u.dropWhile (· ≠ d) with
  | nil =>
    left
    rw [hrest, List.append_nil] at htok
    exact ⟨by rw [← htok]; exact hsplit, rfl⟩
  | cons c cs =>
    right
    have hc : c = d := by simpa using not_of_dropWhile_cons hrest
    rw [hrest, hc] at htok
    rw [List.append_assoc, List.drop_one, List.tail_cons, ← htok]
    exact hsplit

/-- a token that is followed by its delimiter -/
theorem strtokFrom_append {d : Char} {t : Text} (r : Text) (ht : t ≠ []) (hd : d ∉ t) :
    strtokFrom d (t ++ d :: r) = (some t, r) := by
  have hdrop : (t ++ d :: r).dropWhile (· = d) = t ++ d :: r := by
    cases t with
    | nil => exact absurd rfl ht
    | cons c cs => simp [(List.ne_and_not_mem_of_not_mem_cons hd).1.symm]
  simp only [strtokFrom, hdrop]
  rw [if_neg (by simp), List.takeWhile_append_of_pos (forall_ne_of_not_mem hd),
    List.dropWhile_append_of_pos (forall_ne_of_not_mem hd)]
  simp

/-- a token that ends the text -/
theorem strtokFrom_last {d : Char} {t : Text} (ht : t ≠ []) (hd : d ∉ t) : strtokFrom d t = (some t, []) := by
  have hdrop : t.dropWhile (· = d) = t := by
    cases t with
    | nil => exact absurd rfl ht
    | cons c cs => simp [(List.ne_and_not_mem_of_not_mem_cons hd).1.symm]
  simp only [strtokFrom, hdrop]
  rw [if_neg ht, List.takeWhile_eq_self_iff.2 (forall_ne_of_not_mem hd),
    List.dropWhile_eq_nil_iff.2 (forall_ne_of_not_mem hd)]
  rfl

/-- of two tokens around one delimiter the two calls give back the two tokens -/
theorem fields_join {d : Char} {a b : Text} (ha : a ≠ []) (hda : d ∉ a) (hb : b ≠ []) (hdb : d ∉ b) :
    fields d (a ++ d :: b) = (some a, some b) := by
  simp only [fields, strtokFrom_append b ha hda, strtokFrom_last hb hdb]

/-- where the two fields of a text are in it -/
theorem fields_some {d : Char} {s a b : Text} (h : fields d s = (some a, some b)) :
    ∃ pre mid post, s = pre ++ a ++ d :: mid ++ b ++ post ∧ a ≠ [] ∧ d ∉ a ∧ b ≠ [] ∧ d ∉ b := by
  rcases h1 : strtokFrom d s with ⟨t1, r1⟩
  rcases h2 : strtokFrom d r1 with ⟨t2, r2⟩
  simp only [fields, h1, h2, Prod.mk.injEq] at h
  obtain ⟨rfl, rfl⟩ := h
  obtain ⟨lead, hne, hda, hs⟩ := strtokFrom_some h1
  obtain ⟨lead', hne', hdb, hr⟩ := strtokFrom_some h2
  rcases hs with ⟨-, rfl⟩ | hs
  · -- nothing is left for a second token
    rcases hr with ⟨hr, -⟩ | hr
    · exact absurd (List.append_eq_nil_iff.1 hr.symm).2 hne'
    · simp at hr
  · rcases hr with ⟨rfl, -⟩ | rfl
    · exact ⟨lead, lead', [], by rw [hs]; simp, hne, hda, hne', hdb⟩
    · exact ⟨lead, lead', d :: r2, by rw [hs]; simp, hne, hda, hne', hdb⟩

theorem fields_length_le {d : Char} {s a b : Text} (h : fields d s = (some a, some b)) :
    a.length + 1 + b.length ≤ s.length := by
  obtain ⟨pre, mid, post, rfl, -⟩ := fields_some h
  simp only [List.length_append, List.length_cons]
  omega

theorem fields_eq_of_length {d : Char} {s a b : Text} (h : fields d s = (some a, some b))
    (hlen : s.length = a.length + 1 + b.length) : s = a ++ d :: b := by
  obtain ⟨pre, mid, post, rfl, -⟩ := fields_some h
  simp only [List.length_append, List.length_cons] at hlen
  have hpre : pre = [] := List.length_eq_zero_iff.1 (by omega)
  have hmid : mid = [] := List.length_eq_zero_iff.1 (by omega)
  have hpost : post = [] := List.length_eq_zero_iff.1 (by omega)
  simp [hpre, hmid, hpost]

/-! ## Numbers -/

/-- `%d` of a number that is not negative -/
def decimal (n : ℕ) : Text := Nat.toDigits 10 n

theorem decimal_ne_nil (n : ℕ) : decimal n ≠ [] := Nat.toDigits_ne_nil

theorem isDigit_of_mem_decimal {n : ℕ} {c : Char} (h : c ∈ decimal n) : c.isDigit = true :=
  Nat.isDigit_of_mem_toDigits (by norm_num) (by norm_num) h

theorem length_decimal_octet {n : ℕ} (h : n < 256) : (decimal n).length ≤ 3 := by
  have hall : (List.range 256).all (fun n => (decimal n).length ≤ 3) = true := by decide +kernel
  simpa using List.all_eq_true.1 hall n (List.mem_range.2 h)

theorem length_decimal_digit {n : ℕ} (h : n < 10) : (decimal n).length = 1 := by
  rw [decimal, Nat.toDigits_of_lt_base h]
  rfl

/-- the bytes `sscanf` skips before a number -/
def isSpace (c : Char) : Bool := c = ' ' || (9 ≤ c.toNat && c.toNat ≤ 13)

/-- `%d`: leading space, an optional sign, at least one digit; the value and the text after it -/
def scanInt (s : Text) : Option (ℤ × Text) :=
  let s := s.dropWhile isSpace
  let (neg, s) : Bool × Text := match s with
    | '-' :: t => (true, t)
    | '+' :: t => (false, t)
    | t => (false, t)
  let v : ℤ := Nat.ofDigitChars 10 (s.takeWhile Char.isDigit) 0
  if s.takeWhile Char.isDigit = [] then none
  else some (if neg then -v else v, s.dropWhile Char.isDigit)

/-- `n` conversions `%d` separated by dots: the values stored before the scan stops -/
def scanDotted : ℕ → Text → List ℤ
  | 0, _ => []
  | n + 1, s =>
    match scanInt s with
    | none => []
    | some (v, '.' :: rest) => v :: scanDotted n rest
    | some (v, _) => [v]

/-- the text without the space at its two ends -/
def strip (s : Text) : Text := (s.dropWhile isSpace).rdropWhile isSpace

/-- Python's `int` of a text: an optional sign and digits only, with space around them -/
def parseInt (s : Text) : Option ℤ :=
  match scanInt (strip s) with
  | some (v, []) => some v
  | _ => none

theorem isSpace_of_isDigit {c : Char} (h : c.isDigit = true) : isSpace c = false := by
  have h48 : 48 ≤ c.toNat := by
    simp only [Char.isDigit, Bool.and_eq_true, decide_eq_true_eq] at h
    exact h.1
  have hne : c ≠ ' ' := by
    rintro rfl
    revert h48
    decide
  simp only [isSpace, Bool.or_eq_false_iff, Bool.and_eq_false_iff, decide_eq_false_iff_not]
  exact ⟨hne, Or.inr (by omega)⟩

/-- a printed number is read back, up to the first byte that is no digit -/
theorem scanInt_decimal (n : ℕ) (rest : Text) (h : ∀ c ∈ rest.head?, c.isDigit = false) :
    scanInt (decimal n ++ rest) = some ((n : ℤ), rest) := by
  have hdigits : ∀ c ∈ decimal n, c.isDigit = true := fun c hc => isDigit_of_mem_decimal hc
  have htake : (decimal n ++ rest).takeWhile Char.isDigit = decimal n := by
    rw [List.takeWhile_append_of_pos hdigits]
    cases rest with
    | nil => simp
    | cons c rest => simp [h c rfl]
  have hdrop : (decimal n ++ rest).dropWhile Char.isDigit = rest := by
    rw [List.dropWhile_append_of_pos hdigits]
    cases rest with
    | nil => rfl
    | cons c rest => simp [h c rfl]
  obtain ⟨c, cs, hcs⟩ := List.exists_cons_of_ne_nil (decimal_ne_nil n)
  have hc : c.isDigit = true := hdigits c (by rw [hcs]; exact List.mem_cons_self)
  have hspace : (decimal n ++ rest).dropWhile isSpace = decimal n ++ rest := by
    rw [hcs, List.cons_append, List.dropWhile_cons_of_neg (by simp [isSpace_of_isDigit hc])]
  have hvalue : Nat.ofDigitChars 10 (decimal n) 0 = n := Nat.ofDigitChars_ten_toDigits
  simp only [scanInt, hspace]
  -- the first byte is a digit, so there is no sign
  split
  · rename_i heq
    rw [hcs] at heq
    cases heq
    cases hc
  · rename_i heq
    rw [hcs] at heq
    cases heq
    cases hc
  · simp only [htake, hdrop, hvalue, if_neg (decimal_ne_nil n), Bool.false_eq_true, if_false]

/-! ### Numbers separated by dots -/

theorem scanDotted_cons (n k : ℕ) (rest : Text) :
    scanDotted (k + 1) (decimal n ++ '.' :: rest) = (n : ℤ) :: scanDotted k rest := by
  simp only [scanDotted, scanInt_decimal n ('.' :: rest) (by simp)]

theorem scanDotted_last (n : ℕ) (rest : Text) (h : ∀ c ∈ rest.head?, c.isDigit = false) :
    scanDotted 1 (decimal n ++ rest) = [(n : ℤ)] := by
  simp only [scanDotted, scanInt_decimal n rest h]
  cases rest with
  | nil => rfl
  | cons c rest =>
    by_cases hdot : c = '.'
    · subst hdot
      rfl
    · simp [hdot]

/-! ### Numbers of Python -/

theorem strip_of_forall {s : Text} (h : ∀ c ∈ s, isSpace c = false) : strip s = s := by
  have hdrop : s.dropWhile isSpace = s := by
    cases s with
    | nil => rfl
    | cons c s => rw [List.dropWhile_cons_of_neg (by simp [h c List.mem_cons_self])]
  rw [strip, hdrop, List.rdropWhile_eq_self_iff]
  intro hne
  simp [h _ (List.getLast_mem hne)]

theorem parseInt_decimal (n : ℕ) : parseInt (decimal n) = some (n : ℤ) := by
  have hstrip : strip (decimal n) = decimal n :=
    strip_of_forall fun c hc => isSpace_of_isDigit (isDigit_of_mem_decimal hc)
  have hscan := scanInt_decimal n [] (by simp)
  rw [List.append_nil] at hscan
  simp only [parseInt, hstrip, hscan]

end Text

end NetSec
