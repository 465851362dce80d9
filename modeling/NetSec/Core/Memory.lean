/-
Byte memory, seen from one pointer on: `mem a` is the byte at `a`, and there is one at every `a`.

`load n a mem` are `n` bytes, `store a bytes mem` writes bytes, `Holds mem a bytes` says that they are there. `strlen`
counts the bytes before the first zero; it runs on as long as there is none, so that it takes a number of steps. `htons`
and `htonl` are the bytes of a word in network order, `hosts` and `hostl` those of a word as a little-endian machine
keeps it; `loadShorts` reads such words of 16 bits; `swap` and `swapl` turn one into the other. `calloc` sets a block to
zero, and leaves what is behind it.

- `holds_append`, `holds_store`: what lies behind what, and what is there after a write;
- `Holds.getElem`: one byte of what is there;
- `strlen_eq_some`: the bytes before the first zero are counted; `strlenReads` are the places that are read for it;
- `ntohs_of_holds`, `ntohl_of_holds`, `hostl_loadWord`, `swapl_swapl`: words are read back from their bytes.
-/
import Mathlib.Tactic

namespace NetSec.Memory

abbrev Byte := BitVec 8

/-- the bytes from a pointer on -/
abbrev Mem := ℕ → Byte

def load : ℕ → ℕ → Mem → List Byte
  | 0, _, _ => []
  | n + 1, a, mem => mem a :: load n (a + 1) mem

def store (a : ℕ) (bytes : List Byte) (mem : Mem) : Mem := fun i =>
  if i < a then mem i else (bytes[i - a]?).getD (mem i)

def Holds (mem : Mem) (a : ℕ) (bytes : List Byte) : Prop := load bytes.length a mem = bytes

/-- `strlen`, when it ends in so many steps -/
def strlen : ℕ → ℕ → Mem → Option ℕ
  | 0, _, _ => none
  | fuel + 1, a, mem => if mem a = 0 then some 0 else (strlen fuel (a + 1) mem).map (· + 1)

/-- where `strlen` reads -/
def strlenReads : ℕ → ℕ → Mem → List ℕ
  | 0, _, _ => []
  | fuel + 1, a, mem => a :: if mem a = 0 then [] else strlenReads fuel (a + 1) mem

/-! ## Loads and stores -/

@[simp] theorem holds_nil (mem : Mem) (a : ℕ) : Holds mem a [] := rfl

@[simp] theorem holds_cons {mem : Mem} {a : ℕ} {b : Byte} {bytes : List Byte} :
    Holds mem a (b :: bytes) ↔ mem a = b ∧ Holds mem (a + 1) bytes := by
  unfold Holds
  rw [List.length_cons, load, List.cons.injEq]

theorem holds_append {mem : Mem} {a : ℕ} {l r : List Byte} :
    Holds mem a (l ++ r) ↔ Holds mem a l ∧ Holds mem (a + l.length) r := by
  induction l generalizing a with
  | nil => simp
  | cons b l ih =>
    rw [List.cons_append, holds_cons, holds_cons, ih, and_assoc, List.length_cons]
    rw [show a + 1 + l.length = a + (l.length + 1) by omega]

theorem Holds.load_eq {mem : Mem} {a : ℕ} {bytes : List Byte} (h : Holds mem a bytes) {n : ℕ} (hn : bytes.length = n) :
    load n a mem = bytes := hn ▸ h

theorem holds_iff_getElem? {mem : Mem} {a : ℕ} {bytes : List Byte} :
    Holds mem a bytes ↔ ∀ i b, bytes[i]? = some b → mem (a + i) = b := by
  induction bytes generalizing a with
  | nil => simp
  | cons c bytes ih =>
    rw [holds_cons, ih]
    refine ⟨?_, ?_⟩
    · intro ⟨h0, h⟩ i b hb
      cases i with
      | zero =>
        rw [Nat.add_zero, h0]
        exact Option.some.inj hb
      | succ i =>
        rw [← h i b hb]
        congr 1
        omega
    · intro h
      refine ⟨h 0 c rfl, ?_⟩
      intro i b hb
      rw [← h (i + 1) b hb]
      congr 1
      omega

/-- a byte of what is there -/
theorem Holds.getElem {mem : Mem} {a k : ℕ} {bytes : List Byte} (h : Holds mem a bytes) (hk : k < bytes.length) :
    mem (a + k) = bytes[k] := holds_iff_getElem?.1 h k bytes[k] (List.getElem?_eq_getElem hk)

/-- what is at the front of memory is found at its own index -/
theorem Holds.getElem_front {mem : Mem} {k : ℕ} {bytes : List Byte} (h : Holds mem 0 bytes) (hk : k < bytes.length) :
    mem k = bytes[k] := by
  have hbyte := h.getElem hk
  rwa [Nat.zero_add] at hbyte

theorem Holds.getElem?_front {mem : Mem} {k : ℕ} {b : Byte} {bytes : List Byte} (h : Holds mem 0 bytes)
    (hb : bytes[k]? = some b) : mem k = b := by
  obtain ⟨hk, rfl⟩ := List.getElem?_eq_some_iff.1 hb
  exact h.getElem_front hk

/-- **What is there after a write.** -/
theorem holds_store (a : ℕ) (bytes : List Byte) (mem : Mem) : Holds (store a bytes mem) a bytes := by
  apply holds_iff_getElem?.2
  intro i b hb
  unfold store
  rw [if_neg (by omega), Nat.add_sub_cancel_left, hb, Option.getD_some]

/-- a write behind what is there -/
theorem Holds.store {mem : Mem} {a : ℕ} {bytes : List Byte} (h : Holds mem a bytes) {b : ℕ}
    (hb : a + bytes.length ≤ b) (new : List Byte) : Holds (store b new mem) a bytes := by
  apply holds_iff_getElem?.2
  intro i c hc
  obtain ⟨hi, -⟩ := List.getElem?_eq_some_iff.1 hc
  unfold Memory.store
  rw [if_pos (by omega)]
  exact holds_iff_getElem?.1 h i c hc

/-- the same bytes at another place, or in another memory -/
theorem Holds.moved {mem mem' : Mem} {a a' : ℕ} {bytes : List Byte} (h : Holds mem a bytes)
    (hsame : ∀ k < bytes.length, mem' (a' + k) = mem (a + k)) : Holds mem' a' bytes := by
  apply holds_iff_getElem?.2
  intro i b hb
  obtain ⟨hi, -⟩ := List.getElem?_eq_some_iff.1 hb
  rw [hsame i hi]
  exact holds_iff_getElem?.1 h i b hb

theorem store_of_lt {a i : ℕ} (h : i < a) (bytes : List Byte) (mem : Mem) : store a bytes mem i = mem i := if_pos h

@[simp] theorem store_nil (a : ℕ) (mem : Mem) : store a [] mem = mem := by
  funext i
  simp [store]

theorem store_append (a : ℕ) (l r : List Byte) (mem : Mem) :
    store a (l ++ r) mem = store (a + l.length) r (store a l mem) := by
  funext i
  unfold store
  by_cases ha : i < a
  · rw [if_pos ha, if_pos (by omega), if_pos ha]
  · by_cases hl : i < a + l.length
    · rw [if_neg ha, if_pos hl, if_neg ha, List.getElem?_append_left (by omega)]
    · have hnone : l[i - a]? = none := List.getElem?_eq_none (by omega)
      rw [if_neg ha, if_neg hl, if_neg ha, List.getElem?_append_right (by omega), hnone, Option.getD_none,
        Nat.sub_sub]

theorem store_singleton (a : ℕ) (b : Byte) (mem : Mem) : store a [b] mem = Function.update mem a b := by
  funext i
  unfold store
  rcases Nat.lt_trichotomy i a with h | rfl | h
  · rw [if_pos h, Function.update_of_ne (by omega)]
  · simp
  · have hnone : [b][i - a]? = none := List.getElem?_eq_none (by simp; omega)
    rw [if_neg (by omega), hnone, Option.getD_none, Function.update_of_ne (by omega)]

/-- a byte in front of bytes that are written already -/
theorem update_store (a : ℕ) (b : Byte) (bytes : List Byte) (mem : Mem) :
    Function.update (store (a + 1) bytes mem) a b = store a (b :: bytes) mem := by
  rw [show b :: bytes = [b] ++ bytes from rfl, store_append, store_singleton]
  funext i
  by_cases hi : i = a
  · subst hi
    rw [Function.update_self, List.length_singleton, store_of_lt (by omega), Function.update_self]
  · rw [Function.update_of_ne hi, List.length_singleton]
    unfold store
    rw [Function.update_of_ne hi]

theorem length_load (n a : ℕ) (mem : Mem) : (load n a mem).length = n := by
  induction n generalizing a with
  | zero => rfl
  | succ n ih => rw [load, List.length_cons, ih]

theorem load_add (m n a : ℕ) (mem : Mem) : load (m + n) a mem = load m a mem ++ load n (a + m) mem := by
  induction m generalizing a with
  | zero => rw [Nat.zero_add, Nat.add_zero]; rfl
  | succ m ih => rw [Nat.succ_add, load, load, ih, List.cons_append, Nat.add_right_comm, Nat.add_assoc]

/-! ## Strings -/

/-- the first zero from `a` on comes after `n` bytes -/
def EndsAfter (mem : Mem) (a n : ℕ) : Prop := mem (a + n) = 0 ∧ ∀ k < n, mem (a + k) ≠ 0

/-- **The bytes before the first zero are counted.** -/
theorem strlen_eq_some {mem : Mem} {fuel a n : ℕ} : strlen fuel a mem = some n ↔ n < fuel ∧ EndsAfter mem a n := by
  induction fuel generalizing a n with
  | zero => simp [strlen]
  | succ fuel ih =>
    rw [strlen]
    split_ifs with h0
    · cases n with
      | zero => simp [EndsAfter, h0]
      | succ n =>
        apply iff_of_false (by simp)
        intro ⟨_, _, hne⟩
        exact hne 0 (Nat.succ_pos n) h0
    · cases n with
      | zero => simpa [EndsAfter] using h0
      | succ n =>
        have hshift : EndsAfter mem a (n + 1) ↔ EndsAfter mem (a + 1) n := by
          unfold EndsAfter
          rw [show a + (n + 1) = a + 1 + n by omega]
          refine and_congr_right fun _ => ⟨?_, ?_⟩
          · intro h k hk
            have := h (k + 1) (by omega)
            rwa [show a + (k + 1) = a + 1 + k by omega] at this
          · intro h k hk
            cases k with
            | zero => exact h0
            | succ k =>
              have := h k (by omega)
              rwa [show a + 1 + k = a + (k + 1) by omega] at this
        rw [hshift, Nat.add_lt_add_iff_right, ← ih]
        simp

/-- strlen reads up to the first zero -/
theorem EndsAfter.strlenReads_le {mem : Mem} {a n : ℕ} (h : EndsAfter mem a n) (fuel : ℕ) :
    ∀ i ∈ strlenReads fuel a mem, i ≤ a + n := by
  induction fuel generalizing a n with
  | zero => nofun
  | succ fuel ih =>
    rw [strlenReads]
    intro i hi
    rcases List.mem_cons.1 hi with rfl | hi
    · omega
    · split_ifs at hi with h0
      · cases hi
      · obtain ⟨n, rfl⟩ : ∃ m, n = m + 1 := by
          cases n with
          | zero => exact absurd h.1 h0
          | succ n => exact ⟨n, rfl⟩
        have htail : EndsAfter mem (a + 1) n := by
          refine ⟨by rw [show a + 1 + n = a + (n + 1) by omega]; exact h.1, ?_⟩
          intro k hk
          rw [show a + 1 + k = a + (k + 1) by omega]
          exact h.2 (k + 1) (by omega)
        have hle := ih htail i hi
        omega

/-- and it reads on as long as there is none -/
theorem mem_strlenReads {mem : Mem} {fuel a n : ℕ} (h : ∀ k < n, mem (a + k) ≠ 0) (hfuel : n < fuel) :
    a + n ∈ strlenReads fuel a mem := by
  induction n generalizing fuel a with
  | zero =>
    obtain ⟨fuel, rfl⟩ : ∃ f, fuel = f + 1 := ⟨fuel - 1, by omega⟩
    exact List.mem_cons_self
  | succ n ih =>
    obtain ⟨fuel, rfl⟩ : ∃ f, fuel = f + 1 := ⟨fuel - 1, by omega⟩
    have hne : mem a ≠ 0 := h 0 (Nat.succ_pos n)
    rw [strlenReads, if_neg hne, show a + (n + 1) = a + 1 + n by omega]
    apply List.mem_cons_of_mem
    apply ih _ (by omega)
    intro k hk
    rw [show a + 1 + k = a + (k + 1) by omega]
    exact h (k + 1) (by omega)

theorem EndsAfter.unique {mem : Mem} {a n n' : ℕ} (h : EndsAfter mem a n) (h' : EndsAfter mem a n') : n = n' := by
  rcases Nat.lt_trichotomy n n' with hlt | heq | hlt
  · exact absurd h.1 (h'.2 n hlt)
  · exact heq
  · exact absurd h'.1 (h.2 n' hlt)

theorem endsAfter_of_holds {mem : Mem} {a : ℕ} {bytes : List Byte} (h : Holds mem a (bytes ++ [0])) (hne : 0 ∉ bytes) :
    EndsAfter mem a bytes.length := by
  obtain ⟨hbytes, hend⟩ := holds_append.1 h
  refine ⟨(holds_cons.1 hend).1, ?_⟩
  intro k hk h0
  have hk' := hbytes.getElem hk
  rw [h0] at hk'
  exact hne (hk' ▸ List.getElem_mem hk)

/-! ## Words -/

/-- the bytes of a word in network order -/
def htons (v : BitVec 16) : List Byte := [v.extractLsb' 8 8, v.extractLsb' 0 8]

def htonl (v : BitVec 32) : List Byte := [v.extractLsb' 24 8, v.extractLsb' 16 8, v.extractLsb' 8 8, v.extractLsb' 0 8]

/-- the bytes of a word as a little-endian machine keeps it -/
def hosts (v : BitVec 16) : List Byte := [v.extractLsb' 0 8, v.extractLsb' 8 8]

def hostl (v : BitVec 32) : List Byte := [v.extractLsb' 0 8, v.extractLsb' 8 8, v.extractLsb' 16 8, v.extractLsb' 24 8]

/-- a word with its bytes the other way round, which is what `ntohs` and `htons` make of a variable -/
def swap (v : BitVec 16) : BitVec 16 := v.extractLsb' 0 8 ++ v.extractLsb' 8 8

/-- and `ntohl`, `htonl` -/
def swapl (v : BitVec 32) : BitVec 32 :=
  v.extractLsb' 0 8 ++ v.extractLsb' 8 8 ++ v.extractLsb' 16 8 ++ v.extractLsb' 24 8

/-- the word in network order at `a` -/
def ntohs (a : ℕ) (mem : Mem) : BitVec 16 := mem a ++ mem (a + 1)

def ntohl (a : ℕ) (mem : Mem) : BitVec 32 := mem a ++ mem (a + 1) ++ mem (a + 2) ++ mem (a + 3)

/-- `*(uint32_t*)` -/
def loadWord (a : ℕ) (mem : Mem) : BitVec 32 := mem (a + 3) ++ mem (a + 2) ++ mem (a + 1) ++ mem a

/-- `n` words `*(uint16_t*)` from `a` on -/
def loadShorts : ℕ → ℕ → Mem → List (BitVec 16)
  | 0, _, _ => []
  | n + 1, a, mem => (mem (a + 1) ++ mem a) :: loadShorts n (a + 2) mem

/-- a block of `n` bytes that is set to zero, in memory that held `heap` -/
def calloc (n : ℕ) (heap : Mem) : Mem := store 0 (List.replicate n 0) heap

theorem append_htons (v : BitVec 16) : v.extractLsb' 8 8 ++ v.extractLsb' 0 8 = v :=
  BitVec.extractLsb'_append_extractLsb'

theorem append_htonl (v : BitVec 32) :
    v.extractLsb' 24 8 ++ v.extractLsb' 16 8 ++ v.extractLsb' 8 8 ++ v.extractLsb' 0 8 = v :=
  calc
    v.extractLsb' 24 8 ++ v.extractLsb' 16 8 ++ v.extractLsb' 8 8 ++ v.extractLsb' 0 8 =
        v.extractLsb' 16 16 ++ v.extractLsb' 8 8 ++ v.extractLsb' 0 8 := by
      have hhigh : v.extractLsb' 24 8 ++ v.extractLsb' 16 8 = v.extractLsb' 16 16 :=
        BitVec.extractLsb'_append_extractLsb'_eq_extractLsb' (by decide)
      rw [hhigh]
    _ = v.extractLsb' 8 24 ++ v.extractLsb' 0 8 := by
      have hmiddle : v.extractLsb' 16 16 ++ v.extractLsb' 8 8 = v.extractLsb' 8 24 :=
        BitVec.extractLsb'_append_extractLsb'_eq_extractLsb' (by decide)
      rw [hmiddle]
    _ = v := BitVec.extractLsb'_append_extractLsb'

theorem ntohs_of_holds {mem : Mem} {a : ℕ} {v : BitVec 16} (h : Holds mem a (htons v)) : ntohs a mem = v := by
  simp only [htons, holds_cons, holds_nil, and_true] at h
  unfold ntohs
  rw [h.1, h.2, append_htons]

theorem ntohl_of_holds {mem : Mem} {a : ℕ} {v : BitVec 32} (h : Holds mem a (htonl v)) : ntohl a mem = v := by
  simp only [htonl, holds_cons, holds_nil, and_true] at h
  unfold ntohl
  rw [h.1, h.2.1, h.2.2.1, h.2.2.2, append_htonl]

theorem extract_low {v : ℕ} (hi : BitVec v) (lo : Byte) : (hi ++ lo).extractLsb' 0 8 = lo :=
  BitVec.extractLsb'_append_eq_right

theorem extract_high {v : ℕ} (hi : BitVec v) (lo : Byte) (k : ℕ) :
    (hi ++ lo).extractLsb' (k + 8) 8 = hi.extractLsb' k 8 :=
  BitVec.extractLsb'_append_eq_of_le (Nat.le_add_left 8 k)

/-- the bytes of four bytes -/
theorem hostl_append (a b c d : Byte) : hostl (a ++ b ++ c ++ d) = [d, c, b, a] := by
  unfold hostl
  rw [extract_low, extract_high _ _ 0, extract_low, extract_high _ _ 8, extract_high _ _ 0, extract_low,
    extract_high _ _ 16, extract_high _ _ 8]
  rw [show (a ++ b).extractLsb' 8 8 = a from BitVec.extractLsb'_append_eq_left]

theorem hostl_loadWord (a : ℕ) (mem : Mem) : hostl (loadWord a mem) = load 4 a mem := hostl_append ..

theorem swapl_eq {v : BitVec 32} {a b c d : Byte} (h : hostl v = [a, b, c, d]) : swapl v = a ++ b ++ c ++ d := by
  simp only [hostl, List.cons.injEq, and_true] at h
  unfold swapl
  rw [h.1, h.2.1, h.2.2.1, h.2.2.2]

theorem swapl_swapl (v : BitVec 32) : swapl (swapl v) = v := by
  have hbytes : hostl (swapl v) = htonl v := hostl_append ..
  exact (swapl_eq hbytes).trans (append_htonl v)

theorem swapl_injective : Function.Injective swapl := Function.LeftInverse.injective swapl_swapl

end NetSec.Memory
