/-
Where does the parser read and write? The indices that query_dns and ReadName use (client/dnsutils.c, lines 89-192).

`queryAccesses` lists every index used while the answer is parsed, in the order of the source: those into the packet,
those into the 256 bytes that ReadName allocates, and those into the block for the data, with its size. An index is
`Valid` below the number of bytes received, below 256, below the size.

The second loop of ReadName moves each label down over its length, by as many bytes as the length says. A label that
reaches the zero behind the name takes it one place down, so that the loop ends; but before that it has written behind
the label, wherever that is.
- `dotIndices_lt_iff`: the loop ends where the last label ends by its length (`labelsEnd`), and stays in the block
  exactly when that is at most 256;
- `nameIndices_lt_iff`: so a name stays in its block exactly when it has at most 255 bytes and its labels end there.
-/
import NetSec.Client.ResponseDecoding

namespace NetSec.Client

open NetSec.Memory

/-! ## Accesses -/

inductive Access where
  /-- a read of the packet -/
  | packet (i : ℕ)
  /-- a read or a write of the block of ReadName -/
  | name (i : ℕ)
  /-- a write to the block for the data, which has this size -/
  | rdata (i size : ℕ)
deriving DecidableEq, Repr

def Access.Valid (received : ℕ) : Access → Prop
  | .packet i => i < received
  | .name i => i < 256
  | .rdata i size => i < size

/-- where the first loop of ReadName reads -/
def readReads : ℕ → ℕ → Mem → List ℕ
  | 0, _, _ => []
  | fuel + 1, reader, buffer =>
    reader :: if buffer reader = 0 then []
      else if 192 ≤ (buffer reader).toNat then (reader + 1) :: readReads fuel (pointed reader buffer) buffer
      else readReads fuel (reader + 1) buffer

/-- `name[i]=name[i+1]; i=i+1;`, `p` times -/
def shiftIndices : ℕ → ℕ → List ℕ
  | 0, _ => []
  | p + 1, i => (i + 1) :: i :: shiftIndices p (i + 1)

/-- the second loop, where strlen needs at most so many steps -/
def dotIndices (steps : ℕ) : ℕ → ℕ → Mem → List ℕ
  | 0, _, _ => []
  | fuel + 1, i, name =>
    strlenReads steps 0 name ++
      if inside i name then
        let shifted := shiftLabel (name i).toNat i name
        i :: (shiftIndices (name i).toNat i ++
          shifted.1 :: dotIndices steps fuel (shifted.1 + 1) (Function.update shifted.2 shifted.1 (byte '.')))
      else []

/-- the indices into the block of ReadName, when these bytes are read -/
def nameIndices (name : List Byte) (heap : Mem) : List ℕ :=
  let block := store 0 (name ++ [0]) heap
  let i := (dotLabels (name.length + 1) 0 block).1
  -- `name[0]`, the bytes that are copied, the zero behind them
  0 :: List.range (name.length + 1) ++ dotIndices (name.length + 1) (name.length + 1) 0 block ++
    if 0 < i then [i - 1] else []

def readNameAccesses (fuel reader : ℕ) (buffer heap : Mem) : List Access :=
  (readReads fuel reader buffer).map .packet ++
    match readBytes fuel reader buffer ⟨[], false, 1⟩ with
    | none => []
    | some r => (nameIndices r.name heap).map .name

/-- behind the owner name: R_DATA, and the data of the record -/
def dataAccesses (fuel : ℕ) (u : Uninit) (reader : ℕ) (buf : Mem) : List Access :=
  let data := rData reader buf
  (List.range 10).map (fun k => .packet (reader + k)) ++
    if data.type = tA then
      (List.range data.dataLen.toNat).flatMap (fun j =>
        [.packet (reader + 10 + j), .rdata j (rdataSize data.dataLen)]) ++
        [.rdata data.dataLen.toNat (rdataSize data.dataLen)]
    else readNameAccesses fuel (reader + 10) buf u.rdata

def answerAccesses (fuel : ℕ) (u : Uninit) (buf : Mem) : List Access :=
  (strlenReads fuel 12 buf).map .packet ++
    match strlen fuel 12 buf with
    | none => []
    | some len =>
      readNameAccesses fuel (recordAt len) buf u.name ++
        match readName fuel (recordAt len) buf u.name with
        | none => []
        | some (_, stop) => dataAccesses fuel u (recordAt len + stop) buf

/-- every index that is used from recvfrom on, in at most so many steps of each loop -/
def queryAccesses (fuel : ℕ) (u : Uninit) (id : BitVec 16) (host : Text) (queryType : BitVec 16)
    (datagram : List Byte) : List Access :=
  let buf := received u id host queryType datagram
  .packet 6 :: .packet 7 :: if ntohs 6 buf = 0 then [] else answerAccesses fuel u buf

/-! ## The block of a name -/

/-- where the last label ends, by the lengths; `skip` bytes of the current label are still to come -/
def labelsEnd : ℕ → List Byte → ℕ
  | skip, [] => skip
  | 0, b :: name => 1 + labelsEnd b.toNat name
  | skip + 1, _ :: name => 1 + labelsEnd skip name

/-- the bytes of a name and the zero behind them fit into 256 bytes, and so do its labels by their lengths -/
structure NameFits (name : List Byte) : Prop where
  bytes : name.length ≤ 255
  labels : labelsEnd 0 name ≤ 256

theorem labelsEnd_skip {skip : ℕ} {name : List Byte} (h : skip ≤ name.length) :
    labelsEnd skip name = skip + labelsEnd 0 (name.drop skip) := by
  induction skip generalizing name with
  | zero => simp
  | succ skip ih =>
    cases name with
    | nil => simp at h
    | cons b name =>
      calc labelsEnd (skip + 1) (b :: name)
          = 1 + labelsEnd skip name := rfl
        _ = 1 + (skip + labelsEnd 0 (name.drop skip)) := by rw [ih (by simpa using h)]
        _ = skip + 1 + labelsEnd 0 ((b :: name).drop (skip + 1)) := by
            rw [List.drop_succ_cons, Nat.add_comm skip 1, Nat.add_assoc]

theorem labelsEnd_over {skip : ℕ} {name : List Byte} (h : name.length ≤ skip) : labelsEnd skip name = skip := by
  induction name generalizing skip with
  | nil => cases skip <;> rfl
  | cons b name ih =>
    cases skip with
    | zero => simp at h
    | succ skip =>
      calc labelsEnd (skip + 1) (b :: name)
          = 1 + labelsEnd skip name := rfl
        _ = skip + 1 := by rw [ih (by simpa using h), Nat.add_comm]

theorem mem_shiftIndices {p i k : ℕ} (h : k ∈ shiftIndices p i) : k ≤ i + p := by
  induction p generalizing i with
  | zero => cases h
  | succ p ih =>
    rw [shiftIndices] at h
    rcases List.mem_cons.1 h with rfl | h
    · omega
    · rcases List.mem_cons.1 h with rfl | h
      · omega
      · have hle := ih h
        omega

/-- the block when the second loop is at `i`: what is left of the name, its zero, and nothing but bytes in front -/
structure LoopAt (name : List Byte) (block : Mem) (i : ℕ) : Prop where
  le : i ≤ name.length
  front : ∀ k < i, block k ≠ 0
  rest : Holds block i (name.drop i ++ [0])

section Loop

variable {name : List Byte} {block : Mem} {i : ℕ}

theorem LoopAt.getElem (h : LoopAt name block i) {k : ℕ} (hi : i ≤ k) (hk : k < name.length) : block k = name[k] := by
  obtain ⟨j, rfl⟩ := Nat.exists_eq_add_of_le hi
  have hj : j < (name.drop i).length := by
    rw [List.length_drop]
    omega
  rw [(holds_append.1 h.rest).1.getElem hj, List.getElem_drop]

theorem LoopAt.zero (h : LoopAt name block i) : block name.length = 0 := by
  have hend := (holds_cons.1 (holds_append.1 h.rest).2).1
  rwa [List.length_drop, Nat.add_sub_cancel' h.le] at hend

theorem LoopAt.endsAfter (h : LoopAt name block i) (hname : 0 ∉ name) : EndsAfter block 0 name.length := by
  rw [EndsAfter, Nat.zero_add]
  refine ⟨h.zero, ?_⟩
  intro k hk
  rw [Nat.zero_add]
  by_cases hki : k < i
  · exact h.front k hki
  · rw [h.getElem (by omega) hk]
    intro h0
    exact hname (h0 ▸ List.getElem_mem hk)

theorem LoopAt.start (name : List Byte) (heap : Mem) : LoopAt name (store 0 (name ++ [0]) heap) 0 :=
  ⟨Nat.zero_le _, nofun, holds_store 0 (name ++ [0]) heap⟩

/-- the block after a round -/
def afterRound (block : Mem) (i : ℕ) : Mem :=
  Function.update (shiftLabel (block i).toNat i block).2 (i + (block i).toNat) (byte '.')

/-- in front of where the zero was, a round leaves bytes that are not zero -/
theorem LoopAt.afterRound_ne (h : LoopAt name block i) (hname : 0 ∉ name) {k : ℕ} (hk : k + 1 < name.length)
    (hlabel : k ≤ i + (block i).toNat) : afterRound block i k ≠ 0 := by
  have hends := (h.endsAfter hname).2
  unfold afterRound
  by_cases hdot : k = i + (block i).toNat
  · rw [hdot, Function.update_self]
    decide
  · rw [Function.update_of_ne hdot]
    by_cases hki : k < i
    · rw [shiftLabel_front hki]
      exact h.front k hki
    · rw [shiftLabel_moved (by omega) (by omega)]
      have hnext := hends (k + 1) hk
      rwa [Nat.zero_add] at hnext

/-- a label that ends before the zero -/
theorem LoopAt.round (h : LoopAt name block i) (hname : 0 ∉ name) (hlabel : i + (block i).toNat < name.length) :
    LoopAt name (afterRound block i) (i + (block i).toNat + 1) := by
  have hends := (h.endsAfter hname).2
  refine ⟨hlabel, ?_, ?_⟩
  · intro k hk
    by_cases hlast : k + 1 < name.length
    · exact h.afterRound_ne hname hlast (by omega)
    · -- then it is the place of the dot
      obtain rfl : k = i + (block i).toNat := by omega
      rw [afterRound, Function.update_self]
      decide
  · have hsplit : name.drop i ++ [0] = (name.drop i).take ((block i).toNat + 1) ++
        (name.drop (i + (block i).toNat + 1) ++ [0]) := by
      rw [← List.append_assoc, Nat.add_assoc, ← List.drop_drop, List.take_append_drop]
    have hrest := h.rest
    rw [hsplit] at hrest
    have hbehind := (holds_append.1 hrest).2
    rw [List.length_take, List.length_drop, Nat.min_eq_left (by omega), ← Nat.add_assoc] at hbehind
    apply hbehind.moved
    intro k _
    rw [afterRound, Function.update_of_ne (by omega), shiftLabel_behind (by omega)]

/-- a label that reaches the zero or beyond takes it one place down -/
theorem LoopAt.over (h : LoopAt name block i) (hname : 0 ∉ name) (hi : i < name.length)
    (hlabel : name.length ≤ i + (block i).toNat) : EndsAfter (afterRound block i) 0 (name.length - 1) := by
  refine ⟨?_, ?_⟩
  · rw [Nat.zero_add, afterRound, Function.update_of_ne (by omega), shiftLabel_moved (by omega) (by omega),
      Nat.sub_add_cancel (by omega)]
    exact h.zero
  · intro k hk
    rw [Nat.zero_add]
    exact h.afterRound_ne hname (by omega) (by omega)

theorem not_inside_of_endsAfter {n : ℕ} (h : EndsAfter block 0 n) (hi : n ≤ i) : inside i block = false := by
  rw [Bool.eq_false_iff]
  intro hin
  have hzero := h.1
  rw [Nat.zero_add] at hzero
  exact inside_eq_true.1 hin n hi hzero

theorem LoopAt.inside (h : LoopAt name block i) (hname : 0 ∉ name) (hi : i < name.length) : inside i block = true := by
  rw [inside_eq_true]
  intro k hk
  have hne := (h.endsAfter hname).2 k (by omega)
  rwa [Nat.zero_add] at hne

theorem LoopAt.labelsEnd_eq (h : LoopAt name block i) (hi : i < name.length) :
    labelsEnd 0 (name.drop i) = 1 + labelsEnd (block i).toNat (name.drop (i + 1)) := by
  rw [List.drop_eq_getElem_cons hi, labelsEnd, h.getElem le_rfl hi]

/-- behind the end the loop only takes the length once more -/
theorem dotIndices_ended {n : ℕ} (h : EndsAfter block 0 n) (hi : n ≤ i) (steps fuel : ℕ) :
    ∀ k ∈ dotIndices steps fuel i block, k ≤ n := by
  cases fuel with
  | zero => nofun
  | succ fuel =>
    rw [dotIndices, not_inside_of_endsAfter h hi]
    intro k hk
    have hle := h.strlenReads_le steps k (by simpa using hk)
    omega

/-- **The second loop.** It ends behind the last label, and stays in the block exactly when that label does. -/
theorem dotIndices_lt_iff (hname : 0 ∉ name) (hshort : name.length ≤ 255) (h : LoopAt name block i) (fuel : ℕ)
    (hfuel : name.length < i + fuel) (steps : ℕ) :
    (dotLabels fuel i block).1 = i + labelsEnd 0 (name.drop i) ∧
      ((∀ k ∈ dotIndices steps fuel i block, k < 256) ↔ i + labelsEnd 0 (name.drop i) ≤ 256) := by
  induction fuel generalizing i block with
  | zero =>
    have hle := h.le
    omega
  | succ fuel ih =>
    have hends := h.endsAfter hname
    have hreads : ∀ k ∈ strlenReads steps 0 block, k < 256 := by
      intro k hk
      have hle := hends.strlenReads_le steps k hk
      omega
    rcases Nat.lt_or_eq_of_le h.le with hi | rfl
    · rw [dotLabels, dotIndices, h.inside hname hi]
      simp only [if_true, shiftLabel_fst]
      rw [show Function.update (shiftLabel (block i).toNat i block).2 (i + (block i).toNat) (byte '.') =
        afterRound block i from rfl, h.labelsEnd_eq hi, List.forall_mem_append, List.forall_mem_cons,
        List.forall_mem_append, List.forall_mem_cons, and_iff_right hreads]
      have hshift : ∀ k ∈ shiftIndices (block i).toNat i, k ≤ i + (block i).toNat := fun k hk => mem_shiftIndices hk
      by_cases hlabel : i + (block i).toNat < name.length
      · obtain ⟨hend, hall⟩ := ih (h.round hname hlabel) (by omega)
        have hskip : labelsEnd (block i).toNat (name.drop (i + 1)) =
            (block i).toNat + labelsEnd 0 (name.drop (i + (block i).toNat + 1)) := by
          rw [labelsEnd_skip (by rw [List.length_drop]; omega), List.drop_drop, Nat.add_right_comm]
        rw [hend, hall, hskip]
        refine ⟨by omega, ?_⟩
        refine ⟨fun hlt => by have := hlt.2.2.2; omega, ?_⟩
        intro hle
        exact ⟨by omega, fun k hk => by have := hshift k hk; omega, by omega, by omega⟩
      · have hover := h.over hname hi (by omega)
        have hskip : labelsEnd (block i).toNat (name.drop (i + 1)) = (block i).toNat :=
          labelsEnd_over (by rw [List.length_drop]; omega)
        rw [dotLabels_of_not_inside (not_inside_of_endsAfter hover (by omega)), hskip]
        refine ⟨by simp only; omega, ?_⟩
        refine ⟨fun hlt => by have := hlt.2.2.1; omega, ?_⟩
        intro hle
        refine ⟨by omega, fun k hk => by have := hshift k hk; omega, by omega, ?_⟩
        intro k hk
        have hle' := dotIndices_ended hover (by omega) steps fuel k hk
        omega
    · have hout := not_inside_of_endsAfter hends le_rfl
      rw [dotLabels_of_not_inside hout, dotIndices, hout]
      have hzero : labelsEnd 0 (name.drop name.length) = 0 := by rw [List.drop_length]; rfl
      rw [hzero]
      exact ⟨rfl, iff_of_true (by simpa using hreads) (by omega)⟩

end Loop

/-- **When a name stays in its block.** -/
theorem nameIndices_lt_iff {name : List Byte} (hname : 0 ∉ name) (heap : Mem) :
    (∀ k ∈ nameIndices name heap, k < 256) ↔ NameFits name := by
  have hstart := LoopAt.start name heap
  have hbytes : (∀ k ∈ List.range (name.length + 1), k < 256) ↔ name.length ≤ 255 := by
    refine ⟨fun h => ?_, fun h k hk => ?_⟩
    · have hlast := h name.length (List.mem_range.2 (Nat.lt_succ_self _))
      omega
    · have hlt := List.mem_range.1 hk
      omega
  simp only [nameIndices, List.forall_mem_append, List.forall_mem_cons, hbytes]
  refine ⟨?_, ?_⟩
  · intro ⟨⟨⟨_, hshort⟩, hloop⟩, _⟩
    obtain ⟨-, hall⟩ := dotIndices_lt_iff hname hshort hstart (name.length + 1) (by omega) (name.length + 1)
    have hend := hall.1 hloop
    rw [Nat.zero_add, List.drop_zero] at hend
    exact ⟨hshort, hend⟩
  · intro h
    obtain ⟨hend, hall⟩ := dotIndices_lt_iff hname h.bytes hstart (name.length + 1) (by omega) (name.length + 1)
    rw [Nat.zero_add, List.drop_zero] at hend hall
    refine ⟨⟨⟨by decide, h.bytes⟩, hall.2 h.labels⟩, ?_⟩
    intro k hk
    have hlabels := h.labels
    split_ifs at hk
    · rw [List.mem_singleton] at hk
      omega
    · cases hk

end NetSec.Client
