/-
Names written and read: fill_dns_from_host, then ReadName (client/dnsutils.c, lines 143-216).

A name is written label by label, each behind its length; the length goes through `dns_ptr`, which stays behind while
`dns` moves on (`fillFrom`). ReadName copies the bytes up to the zero, then moves each label down over its length and
puts a dot behind it, with `strlen` taken anew each time.

- `fillDnsFromHostAt_eq`: the writes come to one list of bytes, `fillDnsFromHost`; `fillDnsFromHost_host`: for the text
  of some labels, these are the labels' wire forms;
- `dotted_wires`: the second loop of ReadName turns the wire forms of labels into their text, whatever bytes but zero
  are in the labels;
- `name_round_trip`: so a hostname is read back exactly, wherever it was written and whatever lies behind it.
-/
import NetSec.Client.AnswerTypes

namespace NetSec.Client

open NetSec.Memory

/-! ## Writing -/

/-- the loop of fill_dns_from_host: the next byte goes to `dns`, the length of the label to `dnsPtr` -/
def fillFrom : Text → (dns dnsPtr counter : ℕ) → Mem → Mem
  | [], dns, dnsPtr, counter, mem => Function.update (Function.update mem dnsPtr (BitVec.ofNat 8 counter)) dns 0
  | c :: host, dns, dnsPtr, counter, mem =>
    if c = '.' then fillFrom host (dns + 1) dns 0 (Function.update mem dnsPtr (BitVec.ofNat 8 counter))
    else if c = Text.nul then Function.update (Function.update mem dnsPtr (BitVec.ofNat 8 counter)) dns 0
    else fillFrom host (dns + 1) dnsPtr (counter + 1) (Function.update mem dns (byte c))

/-- fill_dns_from_host with the buffer at `dns` -/
def fillDnsFromHostAt (dns : ℕ) (host : Text) (mem : Mem) : Mem := fillFrom host (dns + 1) dns 0 mem

theorem fillFrom_end (label : List Byte) (p : ℕ) (mem : Mem) :
    Function.update (Function.update (store (p + 1) label mem) p (BitVec.ofNat 8 label.length))
      (p + 1 + label.length) 0 = store p (BitVec.ofNat 8 label.length :: label ++ [0]) mem := by
  have hlen : p + (BitVec.ofNat 8 label.length :: label).length = p + 1 + label.length := by
    rw [List.length_cons]
    omega
  rw [update_store, store_append, hlen, store_singleton]

/-- the loop with `label` already written behind the place of its length -/
theorem fillFrom_eq (label : List Byte) (host : Text) (p : ℕ) (mem : Mem) :
    fillFrom host (p + 1 + label.length) p label.length (store (p + 1) label mem) =
      store p (fillLabels label host) mem := by
  induction host generalizing label p mem with
  | nil => exact fillFrom_end label p mem
  | cons c host ih =>
    rw [fillFrom, fillLabels]
    split_ifs
    · -- a dot: the next label starts where the last one ended
      have hlen : p + (BitVec.ofNat 8 label.length :: label).length = p + 1 + label.length := by
        rw [List.length_cons]
        omega
      rw [update_store, store_append, hlen]
      simpa using ih [] (p + 1 + label.length) (store p (BitVec.ofNat 8 label.length :: label) mem)
    · exact fillFrom_end label p mem
    · have hnext := ih (label ++ [byte c]) p mem
      rw [store_append, store_singleton, List.length_append, List.length_singleton, ← Nat.add_assoc] at hnext
      exact hnext

/-- **What is written.** -/
theorem fillDnsFromHostAt_eq (dns : ℕ) (host : Text) (mem : Mem) :
    fillDnsFromHostAt dns host mem = store dns (fillDnsFromHost host) mem := by
  have hloop := fillFrom_eq [] host dns mem
  rw [store_nil] at hloop
  exact hloop

/-! ## Hostnames -/

/-- the labels with dots between them -/
def joined (labels : List Label) : List Byte := [byte '.'].intercalate (labels.map Label.bytes)

def wires (labels : List Label) : List Byte := labels.flatMap Label.wire

/-- the character of a byte -/
def char (b : Byte) : Char := Char.ofNat b.toNat

/-- labels whose bytes are not zero, not dots and below 192; at most 255 bytes when encoded -/
structure Hostname where
  labels : List Label
  nonempty : labels ≠ []
  plain : ∀ l ∈ labels, ∀ b ∈ l.bytes, PlainByte b ∧ b ≠ byte '.'
  short : (wires labels).length + 1 ≤ 255

def Hostname.bytes (h : Hostname) : List Byte := joined h.labels

/-- the hostname as a text -/
def Hostname.text (h : Hostname) : Text := h.bytes.map char

@[simp] theorem joined_nil : joined [] = [] := rfl

@[simp] theorem joined_singleton (l : Label) : joined [l] = l.bytes := by simp [joined]

theorem joined_cons_cons (l l' : Label) (labels : List Label) :
    joined (l :: l' :: labels) = l.bytes ++ byte '.' :: joined (l' :: labels) := by
  simp [joined, List.intercalate]

/-- a dot behind each label is a dot behind the text -/
theorem dots_eq {labels : List Label} (h : labels ≠ []) :
    labels.flatMap (fun l => l.bytes ++ [byte '.']) = joined labels ++ [byte '.'] := by
  induction labels with
  | nil => exact absurd rfl h
  | cons l labels ih =>
    cases labels with
    | nil => simp
    | cons l' labels =>
      rw [List.flatMap_cons, ih (by simp), joined_cons_cons]
      simp

theorem mem_joined {labels : List Label} {b : Byte} (hb : b ∈ joined labels) :
    b = byte '.' ∨ ∃ l ∈ labels, b ∈ l.bytes := by
  induction labels with
  | nil => cases hb
  | cons l labels ih =>
    cases labels with
    | nil =>
      rw [joined_singleton] at hb
      exact Or.inr ⟨l, List.mem_cons_self, hb⟩
    | cons l' labels =>
      rw [joined_cons_cons] at hb
      rcases List.mem_append.1 hb with hb | hb
      · exact Or.inr ⟨l, List.mem_cons_self, hb⟩
      · rcases List.mem_cons.1 hb with rfl | hb
        · exact Or.inl rfl
        · rcases ih hb with hb | ⟨x, hx, hb⟩
          · exact Or.inl hb
          · exact Or.inr ⟨x, List.mem_cons_of_mem l hx, hb⟩

theorem length_wires {labels : List Label} (h : labels ≠ []) : (wires labels).length = (joined labels).length + 1 := by
  induction labels with
  | nil => exact absurd rfl h
  | cons l labels ih =>
    cases labels with
    | nil => simp [wires, Label.wire]
    | cons l' labels =>
      have htail := ih (by simp)
      rw [joined_cons_cons]
      simp only [wires, List.flatMap_cons, List.length_append, List.length_cons, Label.wire] at htail ⊢
      omega

theorem byte_char {b : Byte} (h : b.toNat < 192) : byte (char b) = b := by
  have hvalid : b.toNat.isValidChar := Or.inl (by omega)
  have htoNat : (char b).toNat = b.toNat := by
    rw [char, Char.ofNat, dif_pos hvalid]
    rfl
  rw [byte, htoNat, BitVec.ofNat_toNat, BitVec.setWidth_eq]

/-- it is none of the loop's special characters unless the byte is -/
theorem char_ne {b : Byte} (h : PlainByte b) (hdot : b ≠ byte '.') : char b ≠ '.' ∧ char b ≠ Text.nul := by
  have hb := byte_char h.2
  refine ⟨?_, ?_⟩
  · intro hc
    rw [hc] at hb
    exact hdot hb.symm
  · intro hc
    rw [hc] at hb
    exact h.1 hb.symm

theorem fillLabels_chars (label : List Byte) {bytes : List Byte} (h : ∀ b ∈ bytes, PlainByte b ∧ b ≠ byte '.')
    (rest : Text) : fillLabels label (bytes.map char ++ rest) = fillLabels (label ++ bytes) rest := by
  induction bytes generalizing label with
  | nil => simp
  | cons b bytes ih =>
    obtain ⟨hplain, hdot⟩ := h b List.mem_cons_self
    obtain ⟨h1, h2⟩ := char_ne hplain hdot
    rw [List.map_cons, List.cons_append, fillLabels, if_neg h1, if_neg h2, byte_char hplain.2,
      ih _ fun b hb => h b (List.mem_cons_of_mem _ hb), List.append_assoc]
    rfl

/-- **The text of labels is written as their wire forms.** -/
theorem fillLabels_joined {labels : List Label} (hne : labels ≠ [])
    (h : ∀ l ∈ labels, ∀ b ∈ l.bytes, PlainByte b ∧ b ≠ byte '.') :
    fillLabels [] ((joined labels).map char) = wires labels ++ [0] := by
  induction labels with
  | nil => exact absurd rfl hne
  | cons l labels ih =>
    have hl := h l List.mem_cons_self
    cases labels with
    | nil =>
      have hend := fillLabels_chars [] hl []
      rw [List.append_nil, List.nil_append] at hend
      rw [joined_singleton, hend]
      simp [fillLabels, wires, Label.wire]
    | cons l' labels =>
      have htail := ih (by simp) fun x hx => h x (List.mem_cons_of_mem _ hx)
      have hdot : char (byte '.') = '.' := by decide
      calc fillLabels [] ((joined (l :: l' :: labels)).map char)
          = fillLabels l.bytes ('.' :: (joined (l' :: labels)).map char) := by
            rw [joined_cons_cons, List.map_append, List.map_cons, hdot, fillLabels_chars [] hl, List.nil_append]
        _ = l.wire ++ fillLabels [] ((joined (l' :: labels)).map char) := by
            rw [fillLabels, if_pos rfl]
            rfl
        _ = wires (l :: l' :: labels) ++ [0] := by
            rw [htail]
            simp [wires]

theorem fillDnsFromHost_host (h : Hostname) : fillDnsFromHost h.text = wires h.labels ++ [0] :=
  fillLabels_joined h.nonempty h.plain

/-! ## Reading -/

/-- plain bytes are copied -/
theorem readBytes_copied {buffer : Mem} {a : ℕ} {bytes : List Byte} (h : Holds buffer a bytes)
    (hplain : ∀ b ∈ bytes, PlainByte b) (fuel : ℕ) (r : Reading) :
    readBytes (fuel + bytes.length) a buffer r =
      readBytes fuel (a + bytes.length) buffer
        ⟨r.name ++ bytes, r.jumped, if r.jumped then r.count else r.count + bytes.length⟩ := by
  induction bytes generalizing a r with
  | nil => simp
  | cons b bytes ih =>
    obtain ⟨hb, hbytes⟩ := holds_cons.1 h
    obtain ⟨hne, hlt⟩ := hplain b List.mem_cons_self
    rw [List.length_cons, ← Nat.add_assoc, readBytes, hb, if_neg hne, if_neg (by omega),
      ih hbytes fun b hb => hplain b (List.mem_cons_of_mem _ hb)]
    have hplace : a + 1 + bytes.length = a + (bytes.length + 1) := by omega
    rw [hplace]
    congr 1
    simp only [Reading.push, List.append_assoc, List.singleton_append, Reading.mk.injEq, true_and]
    split_ifs <;> omega

/-- one round of the second loop, at the length of a label -/
theorem shiftLabel_wire {done rest : List Byte} {l : Label} {mem : Mem}
    (h : Holds mem 0 (done ++ (l.wire ++ rest))) :
    Holds (Function.update (shiftLabel l.bytes.length done.length mem).2 (done.length + l.bytes.length) (byte '.')) 0
      (done ++ (l.bytes ++ [byte '.']) ++ rest) := by
  obtain ⟨hdone, hwire⟩ := holds_append.1 h
  obtain ⟨hlabel, hrest⟩ := holds_append.1 hwire
  have hbytes := (holds_cons.1 hlabel).2
  rw [Nat.zero_add] at hbytes hrest
  have hlen : l.wire.length = l.bytes.length + 1 := rfl
  refine holds_append.2 ⟨holds_append.2 ⟨?_, holds_append.2 ⟨?_, ?_⟩⟩, ?_⟩
  · apply hdone.moved
    intro k hk
    rw [Function.update_of_ne (by omega), shiftLabel_front (by omega)]
  · apply hbytes.moved
    intro k hk
    rw [Function.update_of_ne (by omega), shiftLabel_moved (by omega) (by omega)]
    congr 1
    omega
  · rw [holds_cons]
    exact ⟨by simp, holds_nil _ _⟩
  · apply hrest.moved
    intro k _
    simp only [List.length_append, List.length_singleton]
    rw [Function.update_of_ne (by omega), shiftLabel_behind (by omega)]
    congr 1
    omega

/-- **The second loop on the wire forms of labels.** -/
theorem dotLabels_wires {labels : List Label} (hlabels : ∀ l ∈ labels, 0 ∉ l.bytes) {done : List Byte}
    (hdone : 0 ∉ done) {mem : Mem} (h : Holds mem 0 (done ++ (wires labels ++ [0]))) {fuel : ℕ}
    (hfuel : labels.length < fuel) :
    (dotLabels fuel done.length mem).1 = (done ++ labels.flatMap fun l => l.bytes ++ [byte '.']).length ∧
      Holds (dotLabels fuel done.length mem).2 0 (done ++ (labels.flatMap fun l => l.bytes ++ [byte '.']) ++ [0]) := by
  induction labels generalizing done mem fuel with
  | nil =>
    obtain ⟨-, hend⟩ := holds_append.1 h
    have hzero : mem done.length = 0 := by simpa [wires] using hend
    have hout : inside done.length mem = false := by
      rw [Bool.eq_false_iff]
      intro hin
      exact inside_eq_true.1 hin _ le_rfl hzero
    rw [dotLabels_of_not_inside hout]
    simpa [wires] using h
  | cons l labels ih =>
    obtain ⟨fuel, rfl⟩ : ∃ f, fuel = f + 1 := ⟨fuel - 1, by omega⟩
    rw [wires, List.flatMap_cons, List.append_assoc] at h
    obtain ⟨hholds, hwire⟩ := holds_append.1 h
    have hlen : mem done.length = BitVec.ofNat 8 l.bytes.length := by
      have hfirst := (holds_cons.1 (holds_append.1 hwire).1).1
      rwa [Nat.zero_add] at hfirst
    have hshort := l.short
    have hpos := List.length_pos_iff.2 l.nonempty
    have htoNat : (mem done.length).toNat = l.bytes.length := by
      rw [hlen, BitVec.toNat_ofNat]
      omega
    have hin : inside done.length mem = true := by
      rw [inside_eq_true]
      intro k hk h0
      rcases Nat.lt_or_eq_of_le hk with hk | rfl
      · have hbyte := hholds.getElem_front hk
        rw [h0] at hbyte
        exact hdone (hbyte ▸ List.getElem_mem hk)
      · rw [h0] at htoNat
        simp at htoNat
        omega
    have hnext : 0 ∉ done ++ (l.bytes ++ [byte '.']) := by
      have hbytes := hlabels l List.mem_cons_self
      simp only [List.mem_append, not_or]
      exact ⟨hdone, hbytes, by decide⟩
    have hfewer : labels.length < fuel := by simpa using hfuel
    have hih := ih (fun x hx => hlabels x (List.mem_cons_of_mem _ hx)) hnext (shiftLabel_wire h) hfewer
    rw [dotLabels, if_pos hin, htoNat]
    simp only [shiftLabel_fst]
    have hplace : (done ++ (l.bytes ++ [byte '.'])).length = done.length + l.bytes.length + 1 := by
      simp only [List.length_append, List.length_singleton]
      omega
    rw [hplace] at hih
    simpa [List.flatMap_cons] using hih

/-- **The text that ReadName makes of labels**, whatever bytes but zero they hold. -/
theorem dotted_wires {labels : List Label} (hlabels : ∀ l ∈ labels, 0 ∉ l.bytes) (heap : Mem) :
    Holds (dotted (wires labels) heap) 0 (joined labels ++ [0]) := by
  have hlen : labels.length < (wires labels).length + 1 := by
    have hle : labels.length ≤ (wires labels).length := by
      unfold wires
      clear hlabels
      induction labels with
      | nil => simp
      | cons l labels ih =>
        rw [List.flatMap_cons, List.length_append, List.length_cons, Label.wire, List.length_cons]
        omega
    omega
  have hnil : (0 : Byte) ∉ ([] : List Byte) := List.not_mem_nil
  obtain ⟨hend, hholds⟩ := dotLabels_wires hlabels hnil (holds_store 0 (wires labels ++ [0]) heap) hlen
  simp only [List.length_nil, List.nil_append] at hend hholds
  unfold dotted
  simp only [hend]
  by_cases hne : labels = []
  · subst hne
    simpa using hholds
  · rw [dots_eq hne] at hholds ⊢
    rw [if_pos (by simp)]
    obtain ⟨htext, -⟩ := holds_append.1 (holds_append.1 hholds).1
    refine holds_append.2 ⟨?_, ?_⟩
    · apply htext.moved
      intro k hk
      rw [Function.update_of_ne]
      simp only [List.length_append, List.length_singleton]
      omega
    · rw [holds_cons]
      refine ⟨?_, holds_nil _ _⟩
      simp

/-- the bytes of labels, lengths and all -/
theorem plain_wires {labels : List Label} (hplain : ∀ l ∈ labels, ∀ b ∈ l.bytes, PlainByte b) :
    ∀ b ∈ wires labels, PlainByte b := plain_labels (n := ⟨labels, none⟩) hplain

/-- what ReadName gives for wire forms that end with a zero, in any buffer -/
theorem readName_wires {labels : List Label} (hplain : ∀ l ∈ labels, ∀ b ∈ l.bytes, PlainByte b) {buffer : Mem} {a : ℕ}
    (h : Holds buffer a (wires labels ++ [0])) (heap : Mem) {fuel : ℕ} (hfuel : (wires labels).length < fuel) :
    readName fuel a buffer heap = some (dotted (wires labels) heap, (wires labels).length + 1) := by
  obtain ⟨hwires, hend⟩ := holds_append.1 h
  obtain ⟨fuel, rfl⟩ : ∃ f, fuel = f + 1 + (wires labels).length := ⟨fuel - 1 - (wires labels).length, by omega⟩
  rw [readName, readBytes_copied hwires (plain_wires hplain), readBytes, if_pos (holds_cons.1 hend).1]
  simp [Nat.add_comm]

/-- **Round trip.** Wherever fill_dns_from_host writes a hostname, whatever the buffer held and ReadName's block holds,
ReadName started there returns the hostname, and counts the bytes that the encoding takes. -/
theorem name_round_trip (h : Hostname) (buffer heap : Mem) (a : ℕ) :
    ∃ text, (∀ fuel, h.text.length + 2 ≤ fuel →
        readName fuel a (fillDnsFromHostAt a h.text buffer) heap = some (text, h.text.length + 2)) ∧
      Holds text 0 (h.bytes ++ [0]) ∧ h.text.map byte = h.bytes ∧
      (fillDnsFromHost h.text).length = h.text.length + 2 := by
  have hplain : ∀ l ∈ h.labels, ∀ b ∈ l.bytes, PlainByte b := fun l hl b hb => (h.plain l hl b hb).1
  have hwritten : Holds (fillDnsFromHostAt a h.text buffer) a (wires h.labels ++ [0]) := by
    rw [fillDnsFromHostAt_eq, fillDnsFromHost_host]
    exact holds_store a _ buffer
  have hlen : (wires h.labels).length = h.text.length + 1 := by
    rw [length_wires h.nonempty, Hostname.text, List.length_map]
    rfl
  refine ⟨dotted (wires h.labels) heap, ?_, ?_, ?_, ?_⟩
  · intro fuel hfuel
    rw [readName_wires hplain hwritten heap (by omega), hlen]
  · apply dotted_wires
    intro l hl h0
    exact (hplain l hl 0 h0).1 rfl
  · rw [Hostname.text, List.map_map]
    conv_rhs => rw [← List.map_id h.bytes]
    apply List.map_congr_left
    intro b hb
    rcases mem_joined hb with rfl | ⟨l, hl, hb⟩
    · decide
    · exact byte_char (hplain l hl b hb).2
  · rw [fillDnsFromHost_host, List.length_append, hlen]
    rfl

end NetSec.Client
