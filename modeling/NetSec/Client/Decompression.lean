/-
Compressed names: ReadName on any message (client/dnsutils.c, lines 143-192).

`NameAt` is what RFC 1035 says of a name in a message: labels, each behind its length, up to a zero octet or to a
pointer to an earlier name. It is followed octet by octet; ReadName tests every byte that it copies instead, the bytes
inside a label too, so that one from 192 on is taken for a pointer wherever it stands.

- `readName_rfc1035_iff`: for every valid name, written out or compressed in any number of steps, ReadName gives its
  text and the number of its octets exactly when no octet of its labels is 192 or above;
- `readName_returns_iff`: ReadName returns exactly when no pointer it comes to leads back to itself, and no stretch of
  other bytes goes on for ever (`NoLoop`). A pointer is at most two bytes, so that it leads to one of the first 2^14
  places;
- `utf8_label_misread`, `self_pointer_hangs`: both can fail.
-/
import NetSec.Client.NameText
import NetSec.Core.Follow

namespace NetSec.Client

open NetSec.Memory NetSec.Follow

/-! ## Names in a message -/

/-- the name at a place of a message has these labels, and takes so many octets there -/
inductive NameAt (message : List Byte) : ℕ → List Label → ℕ → Prop
  | root {a : ℕ} (h : [0] <+: message.drop a) : NameAt message a [] 1
  | label {a n : ℕ} {l : Label} {labels : List Label} (h : l.wire <+: message.drop a)
    (hn : NameAt message (a + l.wire.length) labels n) : NameAt message a (l :: labels) (l.wire.length + n)
  | pointer {a n : ℕ} {offset : BitVec 14} {labels : List Label} (h : htons (3#2 ++ offset) <+: message.drop a)
    (hearlier : offset.toNat < a) (hn : NameAt message offset.toNat labels n) : NameAt message a labels 2

/-- a valid name: its labels hold no zero octet, and make at most 255 octets when written out -/
structure ValidName (message : List Byte) where
  start : ℕ
  labels : List Label
  octets : ℕ
  valid : NameAt message start labels octets
  nonzero : ∀ l ∈ labels, 0 ∉ l.bytes
  short : (wires labels).length + 1 ≤ 255

/-- ReadName at the start of the name returns its text, and counts its octets; `behind` is what the buffer holds but
for the message -/
def ReturnsName {message : List Byte} (name : ValidName message) (behind heap : Mem) : Prop :=
  ∃ fuel text, readName fuel name.start (store 0 message behind) heap = some (text, name.octets) ∧
    Holds text 0 (joined name.labels ++ [0])

/-! ## Plain names -/

theorem holds_of_drop {buffer : Mem} {message bytes : List Byte} {a : ℕ} (hbuffer : Holds buffer 0 message)
    (h : bytes <+: message.drop a) : Holds buffer a bytes := by
  obtain ⟨rest, hrest⟩ := h
  by_cases hle : a ≤ message.length
  · rw [← List.take_append_drop a message, ← hrest] at hbuffer
    have hbytes := (holds_append.1 (holds_append.1 hbuffer).2).1
    rwa [Nat.zero_add, List.length_take_of_le hle] at hbytes
  · rw [List.drop_eq_nil_of_le (by omega), List.append_eq_nil_iff] at hrest
    rw [hrest.1]
    exact holds_nil buffer a

theorem pointer_toNat (offset : BitVec 14) : (3#2 ++ offset).toNat = 49152 + offset.toNat := by
  rw [BitVec.toNat_append, ← Nat.shiftLeft_add_eq_or_of_lt offset.isLt]
  simp [Nat.shiftLeft_eq]

/-- a pointer leads where its 14 bits say -/
theorem pointed_eq {buffer : Mem} {a : ℕ} {offset : BitVec 14} (h : Holds buffer a (htons (3#2 ++ offset))) :
    192 ≤ (buffer a).toNat ∧ pointed a buffer = offset.toNat := by
  obtain ⟨hhigh, hrest⟩ := holds_cons.1 h
  have hlow := (holds_cons.1 hrest).1
  have hvalue := pointer_toNat offset
  have hlt := offset.isLt
  have hfirst : (buffer a).toNat = (49152 + offset.toNat) / 256 % 256 := by
    rw [hhigh, BitVec.extractLsb'_toNat, hvalue, Nat.shiftRight_eq_div_pow]
  have hsecond : (buffer (a + 1)).toNat = (49152 + offset.toNat) % 256 := by
    rw [hlow, BitVec.extractLsb'_toNat, hvalue, Nat.shiftRight_eq_div_pow, pow_zero, Nat.div_one]
  have hjoin : (buffer a).toNat * 256 + (buffer (a + 1)).toNat = offset.toNat + 49152 := by omega
  exact ⟨by omega, Nat.sub_eq_of_eq_add hjoin⟩

/-- plain bytes in front of a name -/
theorem nameSpan_behind {buffer : Mem} {a n : ℕ} {bytes : List Byte} (hholds : Holds buffer a bytes)
    (hplain : ∀ b ∈ bytes, PlainByte b) (h : NameSpan buffer (a + bytes.length) n) :
    NameSpan buffer a (bytes.length + n) := by
  induction bytes generalizing a with
  | nil => simpa using h
  | cons b bytes ih =>
    obtain ⟨hb, hholds⟩ := holds_cons.1 hholds
    obtain ⟨hne, hlt⟩ := hplain b List.mem_cons_self
    have htail : NameSpan buffer (a + 1 + bytes.length) n := by
      rwa [List.length_cons, show a + (bytes.length + 1) = a + 1 + bytes.length by omega] at h
    have hnext := ih hholds (fun b hb => hplain b (List.mem_cons_of_mem _ hb)) htail
    rw [List.length_cons, show bytes.length + 1 + n = bytes.length + n + 1 by omega]
    exact .next (by rw [hb]; exact hne) (by rw [hb]; exact hlt) hnext

/-- **A name without octets from 192 on is read as RFC 1035 has it.** -/
theorem readBytes_nameAt {message : List Byte} {a n : ℕ} {labels : List Label} (h : NameAt message a labels n)
    {buffer : Mem} (hbuffer : Holds buffer 0 message) (hplain : ∀ l ∈ labels, ∀ b ∈ l.bytes, PlainByte b)
    (r : Reading) : ∃ fuel r', readBytes fuel a buffer r = some r' ∧ r'.name = r.name ++ wires labels ∧
      NameSpan buffer a n := by
  induction h generalizing r with
  | root h =>
    have hzero := (holds_cons.1 (holds_of_drop hbuffer h)).1
    exact ⟨1, r, by rw [readBytes, if_pos hzero], by simp [wires], .stop hzero⟩
  | @label a n l labels h _ ih =>
    have hwire := holds_of_drop hbuffer h
    have hbytes : ∀ b ∈ l.wire, PlainByte b := by
      have hall : ∀ b ∈ wires [l], PlainByte b := by
        apply plain_wires
        intro x hx
        rw [List.mem_singleton.1 hx]
        exact hplain l List.mem_cons_self
      simpa [wires] using hall
    obtain ⟨fuel, r', hread, hname, hspan⟩ := ih (fun x hx => hplain x (List.mem_cons_of_mem l hx))
      ⟨r.name ++ l.wire, r.jumped, if r.jumped then r.count else r.count + l.wire.length⟩
    refine ⟨fuel + l.wire.length, r', by rw [readBytes_copied hwire hbytes, hread], ?_,
      nameSpan_behind hwire hbytes hspan⟩
    rw [hname]
    simp [wires]
  | @pointer a n offset labels h _ _ ih =>
    obtain ⟨hptr, hpointed⟩ := pointed_eq (holds_of_drop hbuffer h)
    obtain ⟨fuel, r', hread, hname, hspan⟩ := ih hplain { r with jumped := true }
    rw [← hpointed] at hread hspan
    exact ⟨fuel + 1, r', by rw [readBytes, if_neg (ne_zero_of_le hptr), if_pos hptr, hread], hname, .jump hptr hspan⟩

/-- so its text and the count are right -/
theorem readName_nameAt {message : List Byte} {a n : ℕ} {labels : List Label} (h : NameAt message a labels n)
    {buffer : Mem} (hbuffer : Holds buffer 0 message) (hplain : ∀ l ∈ labels, ∀ b ∈ l.bytes, PlainByte b) (heap : Mem) :
    ∃ fuel, ∀ fuel', fuel ≤ fuel' → readName fuel' a buffer heap = some (dotted (wires labels) heap, n) := by
  obtain ⟨fuel, r, hread, hname, hspan⟩ := readBytes_nameAt h hbuffer hplain ⟨[], false, 1⟩
  refine ⟨fuel, ?_⟩
  intro fuel' hle
  obtain ⟨m, hm, hcount⟩ := readBytes_span hread
  obtain rfl := hm.unique hspan
  simp only [Bool.false_eq_true, if_false] at hcount
  rw [readName, readBytes_mono hread hle, Option.map_some, hname, List.nil_append]
  congr 2
  omega

/-! ## What a text can hold -/

/-- the first zero is at `z` or before, and up to there are only bytes below 192 -/
def EndsPlain (text : Mem) (z : ℕ) : Prop := text z = 0 ∧ ∀ k ≤ z, (text k).toNat < 192

theorem EndsPlain.update {text : Mem} {z i : ℕ} (h : EndsPlain text z) {b : Byte} (hb : b.toNat < 192) (hi : i ≠ z) :
    EndsPlain (Function.update text i b) z := by
  refine ⟨by rw [Function.update_of_ne (Ne.symm hi)]; exact h.1, ?_⟩
  intro k hk
  by_cases hki : k = i
  · rw [hki, Function.update_self]
    exact hb
  · rw [Function.update_of_ne hki]
    exact h.2 k hk

theorem EndsPlain.cut {text : Mem} {z : ℕ} (h : EndsPlain text z) (i : ℕ) :
    ∃ z', EndsPlain (Function.update text i 0) z' := by
  by_cases hi : i = z
  · refine ⟨z, by rw [hi, Function.update_self], ?_⟩
    intro k hk
    by_cases hki : k = i
    · rw [hki, Function.update_self]
      decide
    · rw [Function.update_of_ne hki]
      exact h.2 k hk
  · exact ⟨z, h.update (by decide) hi⟩

/-- a label that is moved down takes the zero with it when it runs over it -/
theorem EndsPlain.shiftLabel {text : Mem} {z i : ℕ} (h : EndsPlain text z) (hi : i < z) (p : ℕ) :
    ∃ z', EndsPlain (Function.update (Client.shiftLabel p i text).2 (i + p) (byte '.')) z' := by
  have hall : ∀ k < z, (((Client.shiftLabel p i text).2) k).toNat < 192 := by
    intro k hk
    by_cases hfront : k < i
    · rw [shiftLabel_front hfront]
      exact h.2 k (by omega)
    by_cases hbehind : i + p ≤ k
    · rw [shiftLabel_behind hbehind]
      exact h.2 k (by omega)
    · rw [shiftLabel_moved (by omega) (by omega)]
      exact h.2 (k + 1) (by omega)
  by_cases hover : z ≤ i + p
  · refine ⟨z - 1, EndsPlain.update ⟨?_, fun k hk => hall k (by omega)⟩ (by decide) (by omega)⟩
    rw [shiftLabel_moved (by omega) (by omega), Nat.sub_add_cancel (by omega)]
    exact h.1
  · refine ⟨z, EndsPlain.update ⟨?_, ?_⟩ (by decide) (by omega)⟩
    · rw [shiftLabel_behind (by omega)]
      exact h.1
    · intro k hk
      rcases Nat.lt_or_eq_of_le hk with hk | rfl
      · exact hall k hk
      · rw [shiftLabel_behind (by omega)]
        exact h.2 k le_rfl

theorem dotLabels_endsPlain {text : Mem} {z : ℕ} (h : EndsPlain text z) (fuel i : ℕ) :
    ∃ z', EndsPlain (dotLabels fuel i text).2 z' := by
  induction fuel generalizing i z text with
  | zero => exact ⟨z, h⟩
  | succ fuel ih =>
    rw [dotLabels]
    by_cases hin : inside i text = true
    · have hiz : i < z := by
        by_contra hle
        exact inside_eq_true.1 hin z (by omega) h.1
      obtain ⟨z', hz'⟩ := h.shiftLabel hiz (text i).toNat
      rw [if_pos hin]
      simp only [shiftLabel_fst]
      exact ih hz' _
    · rw [if_neg hin]
      exact ⟨z, h⟩

/-- **No text of ReadName holds a byte from 192 on.** -/
theorem readName_endsPlain {fuel a n : ℕ} {buffer heap text : Mem}
    (h : readName fuel a buffer heap = some (text, n)) : ∃ z, EndsPlain text z := by
  obtain ⟨r, hr, hres⟩ := Option.map_eq_some_iff.1 h
  obtain rfl : dotted r.name heap = text := congrArg Prod.fst hres
  have hplain := readBytes_plain hr (by simp)
  obtain ⟨hname, hend⟩ := holds_append.1 (holds_store 0 (r.name ++ [0]) heap)
  rw [Nat.zero_add] at hend
  have hstart : EndsPlain (store 0 (r.name ++ [0]) heap) r.name.length := by
    refine ⟨(holds_cons.1 hend).1, ?_⟩
    intro k hk
    rcases Nat.lt_or_eq_of_le hk with hk | rfl
    · rw [hname.getElem_front hk]
      exact (hplain _ (List.getElem_mem hk)).2
    · rw [(holds_cons.1 hend).1]
      decide
  obtain ⟨z, hz⟩ := dotLabels_endsPlain hstart (r.name.length + 1) 0
  unfold dotted
  simp only
  split_ifs
  · exact hz.cut _
  · exact ⟨z, hz⟩

/-- so a string it makes holds none -/
theorem EndsPlain.lt {text : Mem} {z : ℕ} (h : EndsPlain text z) {bytes : List Byte} (hholds : Holds text 0 bytes)
    (hne : 0 ∉ bytes) : ∀ b ∈ bytes, b.toNat < 192 := by
  intro b hb
  obtain ⟨k, hk, rfl⟩ := List.getElem_of_mem hb
  have hzero : ¬ z < bytes.length := by
    intro hz
    have h0 := hholds.getElem_front hz
    rw [h.1] at h0
    exact hne (h0 ▸ List.getElem_mem hz)
  rw [← hholds.getElem_front hk]
  exact h.2 k (by omega)

/-! ## RFC 1035 -/

theorem mem_joined_of_mem {labels : List Label} {l : Label} (hl : l ∈ labels) {b : Byte} (hb : b ∈ l.bytes) :
    b ∈ joined labels := by
  induction labels with
  | nil => cases hl
  | cons x labels ih =>
    cases labels with
    | nil =>
      rw [List.mem_singleton.1 hl] at hb
      rwa [joined_singleton]
    | cons y labels =>
      rw [joined_cons_cons]
      rcases List.mem_cons.1 hl with rfl | hl
      · exact List.mem_append_left _ hb
      · exact List.mem_append_right _ (List.mem_cons_of_mem _ (ih hl))

theorem ReturnsName.lt {message : List Byte} {name : ValidName message} {behind heap : Mem}
    (h : ReturnsName name behind heap) : ∀ l ∈ name.labels, ∀ b ∈ l.bytes, b.toNat < 192 := by
  intro l hl b hb
  obtain ⟨fuel, text, hread, htext⟩ := h
  obtain ⟨z, hz⟩ := readName_endsPlain hread
  apply hz.lt (holds_append.1 htext).1 _ b (mem_joined_of_mem hl hb)
  intro h0
  rcases mem_joined h0 with hdot | ⟨x, hx, h0⟩
  · revert hdot
    decide
  · exact name.nonzero x hx h0

/-- **A valid name is returned exactly when no octet of its labels is 192 or above.** -/
theorem readName_rfc1035_iff {message : List Byte} (name : ValidName message) (behind heap : Mem) :
    ReturnsName name behind heap ↔ ∀ l ∈ name.labels, ∀ b ∈ l.bytes, b.toNat < 192 := by
  refine ⟨ReturnsName.lt, ?_⟩
  intro h
  have hplain : ∀ l ∈ name.labels, ∀ b ∈ l.bytes, PlainByte b := by
    intro l hl b hb
    refine ⟨?_, h l hl b hb⟩
    rintro rfl
    exact name.nonzero l hl hb
  obtain ⟨fuel, hread⟩ := readName_nameAt name.valid (holds_store 0 message behind) hplain heap
  exact ⟨fuel, _, hread fuel le_rfl, dotted_wires name.nonzero heap⟩

/-- the label "é" of a name in the middle of a message -/
def utf8Name : ValidName [0, 2, 0xC3, 0xA9, 0] where
  start := 1
  labels := [⟨[0xC3, 0xA9], by decide, by decide⟩]
  octets := 4
  valid := .label (by decide) (.root (by decide))
  nonzero := by decide
  short := by decide

theorem utf8_label_misread : ¬ ReturnsName utf8Name (fun _ => 0) (fun _ => 0) := by
  intro h
  exact absurd (h.lt _ List.mem_cons_self 0xC3 List.mem_cons_self) (by decide)

/-! ## Termination -/

/-- where the loop goes from a place -/
def nextPlace (buffer : Mem) (a : ℕ) : ℕ := if 192 ≤ (buffer a).toNat then pointed a buffer else a + 1

/-- the loop, started at a place, comes to another one -/
abbrev ComesTo (buffer : Mem) : ℕ → ℕ → Prop := Visits (nextPlace buffer) (buffer · = 0)

/-- no pointer that the loop comes to leads back to itself; behind each place there is a zero or a pointer -/
structure NoLoop (buffer : Mem) (a : ℕ) : Prop where
  pointers : ∀ q, ComesTo buffer a q → 192 ≤ (buffer q).toNat → ¬ ComesTo buffer (pointed q buffer) q
  stretches : ∀ q, ComesTo buffer a q → ∃ z, q ≤ z ∧ (buffer z = 0 ∨ 192 ≤ (buffer z).toNat)

theorem ComesTo.le {buffer : Mem} {a q : ℕ} (h : ∀ k, a ≤ k → k < q → buffer k ≠ 0 ∧ (buffer k).toNat < 192)
    (hle : a ≤ q) : ComesTo buffer a q := by
  induction q, hle using Nat.le_induction with
  | base => exact .start
  | succ q hq ih =>
    obtain ⟨hne, hlt⟩ := h q hq (by omega)
    have hnext : nextPlace buffer q = q + 1 := by rw [nextPlace, if_neg (by omega)]
    rw [← hnext]
    exact .move (ih fun k hk hkq => h k hk (by omega)) hne

/-- the loop as a way from place to place -/
theorem readBytes_ends {buffer : Mem} {fuel a : ℕ} {r : Reading} :
    (readBytes fuel a buffer r).isSome ↔ ∃ k < fuel, EndsIn (nextPlace buffer) (buffer · = 0) a k := by
  induction fuel generalizing a r with
  | zero => simp [readBytes]
  | succ fuel ih =>
    have hmove : buffer a ≠ 0 → ((∃ k < fuel, EndsIn (nextPlace buffer) (buffer · = 0) (nextPlace buffer a) k) ↔
        ∃ k < fuel + 1, EndsIn (nextPlace buffer) (buffer · = 0) a k) := by
      intro h0
      refine ⟨?_, ?_⟩
      · rintro ⟨k, hk, h⟩
        exact ⟨k + 1, by omega, .move h0 h⟩
      · rintro ⟨k, hk, h⟩
        cases h with
        | here hs => exact absurd hs h0
        | @move _ k _ h => exact ⟨k, by omega, h⟩
    rw [readBytes]
    split_ifs with h0 hptr
    · exact iff_of_true rfl ⟨0, by omega, .here h0⟩
    · rw [ih, ← hmove h0, nextPlace, if_pos hptr]
    · rw [ih, ← hmove h0, nextPlace, if_neg hptr]

theorem pointed_lt (a : ℕ) (buffer : Mem) : pointed a buffer < 2 ^ 14 := by
  have h1 := (buffer a).isLt
  have h2 := (buffer (a + 1)).isLt
  unfold pointed
  omega

/-- what the two ways of saying that a stretch comes to an end have in common -/
theorem stretch_iff {buffer : Mem} {q : ℕ} :
    (∃ z, ComesTo buffer q z ∧ (buffer z = 0 ∨ 192 ≤ (buffer z).toNat)) ↔
      ∃ z, q ≤ z ∧ (buffer z = 0 ∨ 192 ≤ (buffer z).toNat) := by
  refine ⟨?_, ?_⟩
  · intro ⟨z, hz, hend⟩
    by_contra hnone
    have hplain : ∀ k, q ≤ k → ¬ (buffer k = 0 ∨ 192 ≤ (buffer k).toNat) := fun k hk hend => hnone ⟨k, hk, hend⟩
    have hle : q ≤ z := by
      clear hend
      induction hz with
      | start => exact le_rfl
      | @move p _ _ ih =>
        have hp := hplain p ih
        rw [nextPlace, if_neg fun h => hp (Or.inr h)]
        omega
    exact hplain z hle hend
  · intro hsome
    classical
    obtain ⟨hle, hend⟩ := Nat.find_spec hsome
    refine ⟨Nat.find hsome, ComesTo.le ?_ hle, hend⟩
    intro k hk hlt
    have hnot := Nat.find_min hsome hlt
    simp only [not_and, not_or] at hnot
    exact ⟨(hnot hk).1, by have := (hnot hk).2; omega⟩

/-- **When ReadName comes back.** -/
theorem readName_returns_iff (buffer : Mem) (a : ℕ) (heap : Mem) :
    (∃ fuel, (readName fuel a buffer heap).isSome) ↔ NoLoop buffer a := by
  have hname : (∃ fuel, (readName fuel a buffer heap).isSome) ↔
      ∃ k, EndsIn (nextPlace buffer) (buffer · = 0) a k := by
    simp only [readName, Option.isSome_map, readBytes_ends]
    refine ⟨?_, ?_⟩
    · rintro ⟨fuel, k, hk, h⟩
      exact ⟨k, h⟩
    · rintro ⟨k, h⟩
      exact ⟨k + 1, k, Nat.lt_succ_self k, h⟩
  have hjump : ∀ q, 192 ≤ (buffer q).toNat → nextPlace buffer q ∈ Set.Iio (2 ^ 14) := by
    intro q hq
    rw [nextPlace, if_pos hq]
    exact pointed_lt q buffer
  rw [hname, ends_iff (Set.finite_Iio _) hjump]
  refine ⟨?_, ?_⟩
  · rintro ⟨hpointers, hstretches⟩
    refine ⟨?_, fun q hq => stretch_iff.1 (hstretches q hq)⟩
    intro q hq hptr
    have hback := hpointers q hq (ne_zero_of_le hptr) hptr
    rwa [nextPlace, if_pos hptr] at hback
  · intro h
    refine ⟨?_, fun q hq => stretch_iff.2 (h.stretches q hq)⟩
    intro q hq _ hptr
    rw [nextPlace, if_pos hptr]
    exact h.pointers q hq hptr

/-- a pointer to itself is followed for ever -/
theorem readName_self {buffer : Mem} {a : ℕ} (hptr : 192 ≤ (buffer a).toNat) (hself : pointed a buffer = a)
    (fuel : ℕ) (heap : Mem) : readName fuel a buffer heap = none := by
  have hbytes : ∀ r, readBytes fuel a buffer r = none := by
    induction fuel with
    | zero => exact fun _ => rfl
    | succ fuel ih =>
      intro r
      rw [readBytes, if_neg (ne_zero_of_le hptr), if_pos hptr, hself, ih]
  rw [readName, hbytes, Option.map_none]

/-- an answer to a query for "a" whose owner name is a pointer to itself -/
def selfPointer : List Byte :=
  [0, 0, 0x81, 0x80, 0, 1, 0, 1, 0, 0, 0, 0] ++ [1, 97, 0, 0, 1, 0, 1] ++ [0xC0, 19]

theorem self_pointer_hangs :
    (¬ ∃ fuel, (readName fuel 19 (received zeros 0 ['a'] tA selfPointer) zeros.name).isSome) ∧
      ¬ ∃ fuel, (queryDns fuel zeros 0 ['a'] tA (some selfPointer)).isSome := by
  have hbyte : ∀ i b, selfPointer[i]? = some b → received zeros 0 ['a'] tA selfPointer i = b :=
    fun _ _ hb => (received_holds zeros 0 ['a'] tA (by decide)).getElem?_front hb
  generalize hbuf : received zeros 0 ['a'] tA selfPointer = buf at hbyte ⊢
  have howner : ∀ fuel, readName fuel 19 buf zeros.name = none := by
    intro fuel
    apply readName_self
    · rw [hbyte 19 0xC0 rfl]
      decide
    · have hjoin : (buf 19).toNat * 256 + (buf 20).toNat = 19 + 49152 := by
        rw [hbyte 19 0xC0 rfl, hbyte 20 19 rfl]
        decide
      exact Nat.sub_eq_of_eq_add hjoin
  have hname : EndsAfter buf 12 2 := by
    refine ⟨hbyte 14 0 rfl, ?_⟩
    intro k hk
    interval_cases k
    · rw [hbyte 12 1 rfl]
      decide
    · rw [hbyte 13 97 rfl]
      decide
  have hcount : ntohs 6 buf ≠ 0 := by
    rw [ntohs, hbyte 6 0 rfl, hbyte 7 1 rfl]
    decide
  refine ⟨?_, ?_⟩
  · rintro ⟨fuel, h⟩
    rw [howner fuel] at h
    cases h
  · rintro ⟨fuel, h⟩
    have hnone : readAnswer fuel zeros buf = none := by
      -- the name that the question ends with has length 2, so that the record is looked for at 19
      simp only [readAnswer, Option.bind_eq_bind, Option.bind_eq_none_iff]
      intro len hlen p hp
      obtain rfl := (strlen_eq_some.1 hlen).2.unique hname
      rw [howner fuel] at hp
      cases hp
    simp only [queryDns, hbuf, if_neg hcount, hnone, Option.map_none] at h
    cases h

end NetSec.Client
