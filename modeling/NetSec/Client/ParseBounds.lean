/-
Does the parser stay in bounds? query_dns and ReadName on any datagram (client/dnsutils.c, lines 89-192).

Nothing in the source looks at the number of bytes received, at the room in the block for a name, or at the lengths of
the labels that are moved down in it; the size of the block for the data is right for lengths below 0xff00.

- `NameInside`: a name that lies in the datagram wherever its pointers lead. ReadName reads only in the datagram
  exactly from these (`NameInside.reads`, `nameInside_of_reads`);
- `parse_in_bounds_iff`: all indices are valid exactly when the names and the record lie inside the datagram, the names
  fit their blocks, and the length of an address is below 0xff00 (`ParseFits`);
- `stays_not_in_bounds`: a datagram without a byte, and one whose last label is too long, are read and written beyond.
-/
import NetSec.Client.Accesses

namespace NetSec.Client

open NetSec.Memory

/-! ## Names in the datagram -/

/-- where a pointer of these two bytes leads -/
def target (hi lo : Byte) : ℕ := hi.toNat * 256 + lo.toNat - 49152

/-- the name at a place, followed through its pointers, lies in the datagram: the bytes that ReadName copies, and how
many bytes it takes at that place -/
inductive NameInside (d : List Byte) : ℕ → List Byte → ℕ → Prop
  | stop {a : ℕ} (h : d[a]? = some 0) : NameInside d a [] 1
  | jump {a n : ℕ} {hi lo : Byte} {name : List Byte} (h : d[a]? = some hi) (hlo : d[a + 1]? = some lo)
    (hptr : 192 ≤ hi.toNat) (hn : NameInside d (target hi lo) name n) : NameInside d a name 2
  | next {a n : ℕ} {b : Byte} {name : List Byte} (h : d[a]? = some b) (h0 : b ≠ 0) (hlt : b.toNat < 192)
    (hn : NameInside d (a + 1) name n) : NameInside d a (b :: name) (n + 1)

section Names

variable {d : List Byte} {buf : Mem} {a n : ℕ} {name : List Byte}

theorem getElem?_of_holds (hbuf : Holds buf 0 d) (h : a < d.length) : d[a]? = some (buf a) := by
  rw [List.getElem?_eq_getElem h, hbuf.getElem_front h]

theorem pointed_eq_target (hbuf : Holds buf 0 d) {hi lo : Byte} (h : d[a]? = some hi) (hlo : d[a + 1]? = some lo) :
    pointed a buf = target hi lo := by
  have hhi := hbuf.getElem?_front h
  have hlo' := hbuf.getElem?_front hlo
  subst hhi hlo'
  rfl

theorem lt_of_getElem? {b : Byte} (h : d[a]? = some b) : a < d.length := (List.getElem?_eq_some_iff.1 h).1

theorem NameInside.span (hbuf : Holds buf 0 d) (h : NameInside d a name n) : NameSpan buf a n := by
  induction h with
  | stop h => exact .stop (hbuf.getElem?_front h)
  | jump h hlo hptr _ ih =>
    rw [← pointed_eq_target hbuf h hlo] at ih
    exact .jump (by rw [hbuf.getElem?_front h]; exact hptr) ih
  | next h h0 hlt _ ih =>
    have hb := hbuf.getElem?_front h
    exact .next (by rw [hb]; exact h0) (by rw [hb]; exact hlt) ih

theorem NameInside.plain (h : NameInside d a name n) : 0 ∉ name := by
  induction h with
  | stop _ => nofun
  | jump _ _ _ _ ih => exact ih
  | next _ h0 _ _ ih =>
    rw [List.mem_cons, not_or]
    exact ⟨Ne.symm h0, ih⟩

/-- the first loop reads only in the datagram, however long it runs -/
theorem NameInside.reads (hbuf : Holds buf 0 d) (h : NameInside d a name n) (fuel : ℕ) :
    ∀ i ∈ readReads fuel a buf, i < d.length := by
  induction h generalizing fuel with
  | stop h =>
    cases fuel with
    | zero => nofun
    | succ fuel =>
      rw [readReads, if_pos (hbuf.getElem?_front h)]
      simpa using lt_of_getElem? h
  | jump h hlo hptr _ ih =>
    cases fuel with
    | zero => nofun
    | succ fuel =>
      have hb := hbuf.getElem?_front h
      rw [readReads, hb, if_neg (ne_zero_of_le hptr), if_pos hptr, pointed_eq_target hbuf h hlo, List.forall_mem_cons,
        List.forall_mem_cons]
      exact ⟨lt_of_getElem? h, lt_of_getElem? hlo, ih fuel⟩
  | next h h0 hlt _ ih =>
    cases fuel with
    | zero => nofun
    | succ fuel =>
      rw [readReads, hbuf.getElem?_front h, if_neg h0, if_neg (by omega), List.forall_mem_cons]
      exact ⟨lt_of_getElem? h, ih fuel⟩

/-- a loop that ends, and reads only in the datagram, has read such a name -/
theorem nameInside_of_reads (hbuf : Holds buf 0 d) {fuel : ℕ} {r r' : Reading} (hr : readBytes fuel a buf r = some r')
    (hreads : ∀ i ∈ readReads fuel a buf, i < d.length) :
    ∃ name n, NameInside d a name n ∧ r'.name = r.name ++ name := by
  induction fuel generalizing a r with
  | zero => cases hr
  | succ fuel ih =>
    rw [readBytes] at hr
    rw [readReads, List.forall_mem_cons] at hreads
    have ha := getElem?_of_holds hbuf hreads.1
    have hrest := hreads.2
    split_ifs at hr hrest with h0 hptr
    · obtain rfl := Option.some.inj hr
      rw [h0] at ha
      exact ⟨[], 1, .stop ha, (List.append_nil _).symm⟩
    · rw [List.forall_mem_cons] at hrest
      have hlo := getElem?_of_holds hbuf hrest.1
      obtain ⟨name, n, hin, hname⟩ := ih hr hrest.2
      rw [pointed_eq_target hbuf ha hlo] at hin
      exact ⟨name, 2, .jump ha hlo hptr hin, hname⟩
    · obtain ⟨name, n, hin, hname⟩ := ih hr hrest
      refine ⟨buf a :: name, n + 1, .next ha h0 (by omega) hin, ?_⟩
      calc r'.name
          = r.name ++ [buf a] ++ name := hname
        _ = r.name ++ buf a :: name := List.append_assoc _ _ _

/-- the bytes that are copied are those of the name -/
theorem NameInside.readBytes_name (hbuf : Holds buf 0 d) (h : NameInside d a name n) {fuel : ℕ} {r r' : Reading}
    (hr : readBytes fuel a buf r = some r') : r'.name = r.name ++ name := by
  induction h generalizing fuel r with
  | stop h =>
    cases fuel with
    | zero => cases hr
    | succ fuel =>
      rw [readBytes, if_pos (hbuf.getElem?_front h)] at hr
      rw [Option.some.inj hr, List.append_nil]
  | jump h hlo hptr _ ih =>
    cases fuel with
    | zero => cases hr
    | succ fuel =>
      have hb := hbuf.getElem?_front h
      rw [readBytes, hb, if_neg (ne_zero_of_le hptr), if_pos hptr, pointed_eq_target hbuf h hlo] at hr
      have hname := ih hr
      exact hname
  | @next _ _ b name h h0 hlt _ ih =>
    cases fuel with
    | zero => cases hr
    | succ fuel =>
      rw [readBytes, hbuf.getElem?_front h, if_neg h0, if_neg (by omega)] at hr
      calc r'.name
          = r.name ++ [b] ++ name := ih hr
        _ = r.name ++ b :: name := List.append_assoc _ _ _

/-- **A call of ReadName that stays in bounds**, however long it runs. -/
theorem readNameAccesses_valid (hbuf : Holds buf 0 d) (h : NameInside d a name n) (hfits : NameFits name) (fuel : ℕ)
    (heap : Mem) : ∀ x ∈ readNameAccesses fuel a buf heap, x.Valid d.length := by
  intro x hx
  rcases List.mem_append.1 hx with hx | hx
  · obtain ⟨i, hi, rfl⟩ := List.mem_map.1 hx
    exact h.reads hbuf fuel i hi
  · cases hr : readBytes fuel a buf ⟨[], false, 1⟩ with
    | none =>
      rw [hr] at hx
      cases hx
    | some r =>
      rw [hr] at hx
      obtain ⟨i, hi, rfl⟩ := List.mem_map.1 hx
      rw [h.readBytes_name hbuf hr, List.nil_append] at hi
      exact (nameIndices_lt_iff h.plain heap).2 hfits i hi

/-- **What a call in bounds has read.** -/
theorem nameFits_of_valid (hbuf : Holds buf 0 d) {fuel : ℕ} {heap text : Mem}
    (hread : readName fuel a buf heap = some (text, n))
    (hvalid : ∀ x ∈ readNameAccesses fuel a buf heap, x.Valid d.length) :
    ∃ name, NameInside d a name n ∧ NameFits name := by
  obtain ⟨r, hr, -⟩ := Option.map_eq_some_iff.1 hread
  rw [readNameAccesses, hr, List.forall_mem_append, List.forall_mem_map, List.forall_mem_map] at hvalid
  obtain ⟨name, m, hin, hname⟩ := nameInside_of_reads hbuf hr hvalid.1
  rw [List.nil_append] at hname
  obtain rfl := (hin.span hbuf).unique (readName_span hread)
  rw [hname] at hvalid
  exact ⟨name, hin, (nameIndices_lt_iff hin.plain heap).1 hvalid.2⟩

end Names

/-! ## The whole answer -/

/-- the 16-bit word at a place of the datagram -/
def wordAt (d : List Byte) (a : ℕ) : BitVec 16 := d.getD a 0 ++ d.getD (a + 1) 0

/-- the first zero of the datagram from `a` on comes after `n` bytes -/
def EndsInside (d : List Byte) (a n : ℕ) : Prop := d[a + n]? = some 0 ∧ ∀ k < n, d[a + k]? ≠ some 0

/-- the data of an answer that starts its fields at `a` lies in the datagram, and fits its block -/
structure DataFits (d : List Byte) (a : ℕ) : Prop where
  fields : a + 10 ≤ d.length
  address : wordAt d a = tA → a + 10 + (wordAt d (a + 8)).toNat ≤ d.length ∧ (wordAt d (a + 8)).toNat < 0xff00
  text : wordAt d a ≠ tA → ∃ name n, NameInside d (a + 10) name n ∧ NameFits name

/-- the echoed name and the first answer lie in the datagram, and fit their blocks -/
def AnswerFits (d : List Byte) : Prop :=
  ∃ len name stop, EndsInside d 12 len ∧ NameInside d (recordAt len) name stop ∧ NameFits name ∧
    DataFits d (recordAt len + stop)

/-- the answer count lies in the datagram; if it is not 0, so does what is read of the answer -/
structure ParseFits (d : List Byte) : Prop where
  count : 8 ≤ d.length
  answer : wordAt d 6 ≠ 0 → AnswerFits d

/-- every call of ReadName ends -/
structure NamesEnd (buf : Mem) : Prop where
  owner : ∀ len, EndsAfter buf 12 len → ∃ n, NameSpan buf (recordAt len) n
  data : ∀ len stop, EndsAfter buf 12 len → NameSpan buf (recordAt len) stop →
    ntohs (recordAt len + stop) buf ≠ tA → ∃ n, NameSpan buf (recordAt len + stop + 10) n

/-- every index that is ever used is valid -/
def InBounds (u : Uninit) (id : BitVec 16) (host : Text) (queryType : BitVec 16) (datagram : List Byte) : Prop :=
  ∀ fuel, ∀ x ∈ queryAccesses fuel u id host queryType datagram, x.Valid (datagram.take bigBufferSize).length

section Answer

variable {d : List Byte} {buf : Mem} {a n : ℕ}

theorem ntohs_eq_wordAt (hbuf : Holds buf 0 d) (h : a + 1 < d.length) : ntohs a buf = wordAt d a := by
  have hfirst := getElem?_of_holds hbuf (show a < d.length by omega)
  have hsecond := getElem?_of_holds hbuf h
  rw [ntohs, wordAt, List.getD_eq_getElem?_getD, List.getD_eq_getElem?_getD, hfirst, hsecond]
  rfl

theorem EndsInside.lt (h : EndsInside d a n) : a + n < d.length := lt_of_getElem? h.1

theorem EndsInside.endsAfter (hbuf : Holds buf 0 d) (h : EndsInside d a n) : EndsAfter buf a n := by
  refine ⟨hbuf.getElem?_front h.1, ?_⟩
  intro k hk h0
  apply h.2 k hk
  rw [getElem?_of_holds hbuf (by have := h.lt; omega), h0]

/-- a strlen that reads only in the datagram ends there -/
theorem endsInside_of_reads (hbuf : Holds buf 0 d) {fuel : ℕ} (hfuel : d.length < fuel)
    (h : ∀ i ∈ strlenReads fuel a buf, i < d.length) : ∃ n, EndsInside d a n := by
  classical
  have hsome : ∃ k, buf (a + k) = 0 ∨ d.length ≤ a + k := ⟨d.length, Or.inr (Nat.le_add_left _ _)⟩
  have hfirst : ∀ k < Nat.find hsome, buf (a + k) ≠ 0 ∧ a + k < d.length := by
    intro k hk
    have hnot := Nat.find_min hsome hk
    rw [not_or] at hnot
    exact ⟨hnot.1, by omega⟩
  have hle : Nat.find hsome ≤ d.length := Nat.find_min' hsome (Or.inr (Nat.le_add_left _ _))
  have hread := h _ (mem_strlenReads (fun k hk => (hfirst k hk).1) (Nat.lt_of_le_of_lt hle hfuel))
  have hzero : buf (a + Nat.find hsome) = 0 := (Nat.find_spec hsome).resolve_right (by omega)
  refine ⟨Nat.find hsome, by rw [getElem?_of_holds hbuf hread, hzero], ?_⟩
  intro k hk h0
  obtain ⟨hne, hlt⟩ := hfirst k hk
  rw [getElem?_of_holds hbuf hlt] at h0
  exact hne (Option.some.inj h0)

/-- the fields that are read, when they lie in the datagram -/
theorem rData_eq_wordAt (hbuf : Holds buf 0 d) (h : a + 10 ≤ d.length) :
    (rData a buf).type = wordAt d a ∧ (rData a buf).dataLen = wordAt d (a + 8) :=
  ⟨ntohs_eq_wordAt hbuf (by omega), ntohs_eq_wordAt hbuf (by omega)⟩

theorem dataAccesses_valid (hbuf : Holds buf 0 d) (h : DataFits d a) (fuel : ℕ) (u : Uninit) :
    ∀ x ∈ dataAccesses fuel u a buf, x.Valid d.length := by
  obtain ⟨htype, hlen⟩ := rData_eq_wordAt hbuf h.fields
  have hfields := h.fields
  intro x hx
  simp only [dataAccesses, htype, hlen] at hx
  rcases List.mem_append.1 hx with hx | hx
  · obtain ⟨k, hk, rfl⟩ := List.mem_map.1 hx
    have hlt := List.mem_range.1 hk
    exact show a + k < d.length by omega
  · split_ifs at hx with ha
    · obtain ⟨hinside, hshort⟩ := h.address ha
      have hroom := (lt_rdataSize_iff (wordAt d (a + 8))).2 hshort
      rcases List.mem_append.1 hx with hx | hx
      · obtain ⟨j, hj, hx⟩ := List.mem_flatMap.1 hx
        have hlt := List.mem_range.1 hj
        rcases List.mem_cons.1 hx with rfl | hx
        · exact show a + 10 + j < d.length by omega
        · rw [List.mem_singleton.1 hx]
          exact show j < rdataSize (wordAt d (a + 8)) by omega
      · rw [List.mem_singleton.1 hx]
        exact hroom
    · obtain ⟨name, n, hin, hfits⟩ := h.text ha
      exact readNameAccesses_valid hbuf hin hfits fuel u.rdata x hx

theorem dataFits_of_valid (hbuf : Holds buf 0 d) {fuel : ℕ} {u : Uninit}
    (hread : ntohs a buf ≠ tA → ∃ text n, readName fuel (a + 10) buf u.rdata = some (text, n))
    (hvalid : ∀ x ∈ dataAccesses fuel u a buf, x.Valid d.length) : DataFits d a := by
  unfold dataAccesses at hvalid
  rw [List.forall_mem_append, List.forall_mem_map] at hvalid
  obtain ⟨hfields, hrest⟩ := hvalid
  have hlast : a + 9 < d.length := hfields 9 (by decide)
  obtain ⟨htype, hlen⟩ := rData_eq_wordAt hbuf (show a + 10 ≤ d.length by omega)
  rw [htype, hlen] at hrest
  refine ⟨by omega, ?_, ?_⟩
  · intro ha
    rw [if_pos ha, List.forall_mem_append, List.forall_mem_singleton] at hrest
    obtain ⟨hcopy, hzero⟩ := hrest
    refine ⟨?_, (lt_rdataSize_iff _).1 hzero⟩
    rcases Nat.eq_zero_or_pos (wordAt d (a + 8)).toNat with h0 | hpos
    · omega
    · have hend : a + 10 + ((wordAt d (a + 8)).toNat - 1) < d.length := by
        apply hcopy (.packet (a + 10 + ((wordAt d (a + 8)).toNat - 1)))
        apply List.mem_flatMap.2
        exact ⟨(wordAt d (a + 8)).toNat - 1, List.mem_range.2 (by omega), List.mem_cons_self⟩
      omega
  · intro ha
    rw [if_neg ha] at hrest
    have hother : ntohs a buf ≠ tA := by
      rw [ntohs_eq_wordAt hbuf (by omega)]
      exact ha
    obtain ⟨text, n, hname⟩ := hread hother
    obtain ⟨name, hin, hfits⟩ := nameFits_of_valid hbuf hname hrest
    exact ⟨name, n, hin, hfits⟩

theorem answerAccesses_valid (hbuf : Holds buf 0 d) (h : AnswerFits d) (fuel : ℕ) (u : Uninit) :
    ∀ x ∈ answerAccesses fuel u buf, x.Valid d.length := by
  obtain ⟨len, name, stop, hend, hin, hfits, hdata⟩ := h
  have hafter := hend.endsAfter hbuf
  intro x hx
  rcases List.mem_append.1 hx with hx | hx
  · obtain ⟨i, hi, rfl⟩ := List.mem_map.1 hx
    have hle := hafter.strlenReads_le fuel i hi
    have hlt := hend.lt
    exact show i < d.length by omega
  · cases hlen : strlen fuel 12 buf with
    | none =>
      rw [hlen] at hx
      cases hx
    | some len' =>
      obtain rfl := (strlen_eq_some.1 hlen).2.unique hafter
      rw [hlen] at hx
      rcases List.mem_append.1 hx with hx | hx
      · exact readNameAccesses_valid hbuf hin hfits fuel u.name x hx
      · cases hname : readName fuel (recordAt len') buf u.name with
        | none =>
          rw [hname] at hx
          cases hx
        | some out =>
          obtain rfl : out.2 = stop := (readName_span hname).unique (hin.span hbuf)
          rw [hname] at hx
          exact dataAccesses_valid hbuf hdata fuel u x hx

theorem answerFits_of_valid (hbuf : Holds buf 0 d) (hends : NamesEnd buf) {u : Uninit}
    (hvalid : ∀ fuel, ∀ x ∈ answerAccesses fuel u buf, x.Valid d.length) : AnswerFits d := by
  obtain ⟨len, hend⟩ : ∃ len, EndsInside d 12 len := by
    apply endsInside_of_reads hbuf (Nat.lt_succ_self d.length)
    exact List.forall_mem_map.1 (List.forall_mem_append.1 (hvalid (d.length + 1))).1
  have hafter := hend.endsAfter hbuf
  obtain ⟨stop, hstop⟩ := hends.owner len hafter
  obtain ⟨fuel, text, hname⟩ := readName_of_span hstop u.name
  have hdata : ∃ fuel', ∀ most, fuel' ≤ most → ntohs (recordAt len + stop) buf ≠ tA →
      ∃ text n, readName most (recordAt len + stop + 10) buf u.rdata = some (text, n) := by
    by_cases htype : ntohs (recordAt len + stop) buf = tA
    · exact ⟨0, fun _ _ hne => absurd htype hne⟩
    · obtain ⟨m, hm⟩ := hends.data len stop hafter hstop htype
      obtain ⟨fuel', text', hread⟩ := readName_of_span hm u.rdata
      exact ⟨fuel', fun most hle _ => ⟨text', m, hread most hle⟩⟩
  obtain ⟨fuel', hread⟩ := hdata
  -- so many steps are enough for all loops
  let most := max (max fuel fuel') (len + 1)
  have hlen : strlen most 12 buf = some len := strlen_eq_some.2 ⟨by omega, hafter⟩
  have howner := hname most (by omega)
  have hall := hvalid most
  simp only [answerAccesses, hlen, howner, List.forall_mem_append] at hall
  obtain ⟨name, hin, hfits⟩ := nameFits_of_valid hbuf howner hall.2.1
  exact ⟨len, name, stop, hend, hin, hfits, dataFits_of_valid hbuf (hread most (by omega)) hall.2.2⟩

end Answer

/-- **When the parser stays in bounds.** For every datagram on which the loops of ReadName end, whatever memory held
before. -/
theorem parse_in_bounds_iff (u : Uninit) (id : BitVec 16) (host : Text) (queryType : BitVec 16) (datagram : List Byte)
    (hends : ntohs 6 (received u id host queryType datagram) ≠ 0 → NamesEnd (received u id host queryType datagram)) :
    InBounds u id host queryType datagram ↔ ParseFits (datagram.take bigBufferSize) := by
  have hbuf := received_holds_take u id host queryType datagram
  unfold InBounds queryAccesses
  generalize received u id host queryType datagram = buf at hbuf hends ⊢
  generalize datagram.take bigBufferSize = d at hbuf ⊢
  simp only [List.forall_mem_cons]
  refine ⟨?_, ?_⟩
  · intro h
    have hcount : 7 < d.length := (h 0).2.1
    refine ⟨hcount, ?_⟩
    intro hne
    rw [← ntohs_eq_wordAt hbuf hcount] at hne
    apply answerFits_of_valid hbuf (hends hne) (u := u)
    intro fuel
    have hall := (h fuel).2.2
    rwa [if_neg hne] at hall
  · intro h fuel
    have hcount := h.count
    refine ⟨show 6 < d.length by omega, show 7 < d.length by omega, ?_⟩
    rw [ntohs_eq_wordAt hbuf (by omega)]
    split_ifs with h0
    · nofun
    · exact answerAccesses_valid hbuf (h.answer h0) fuel u

/-! ## Two datagrams -/

/-- what lies in the datagram comes to an end -/
theorem AnswerFits.namesEnd {d : List Byte} {buf : Mem} (hbuf : Holds buf 0 d) (h : AnswerFits d) : NamesEnd buf := by
  obtain ⟨len, name, stop, hend, hin, -, hdata⟩ := h
  refine ⟨?_, ?_⟩
  · intro len' hlen
    obtain rfl := hlen.unique (hend.endsAfter hbuf)
    exact ⟨stop, hin.span hbuf⟩
  · intro len' stop' hlen hstop hne
    obtain rfl := hlen.unique (hend.endsAfter hbuf)
    obtain rfl := hstop.unique (hin.span hbuf)
    have hfields := hdata.fields
    rw [ntohs_eq_wordAt hbuf (by omega)] at hne
    obtain ⟨text, n, hin', -⟩ := hdata.text hne
    exact ⟨n, hin'.span hbuf⟩

/-- an answer to a query for "a" with its address -/
def goodAnswer : List Byte :=
  [0, 0, 0x81, 0x80, 0, 1, 0, 1, 0, 0, 0, 0] ++ [1, 97, 0, 0, 1, 0, 1] ++ [0xC0, 12] ++
    [0, 1, 0, 1, 0, 0, 0, 60, 0, 4] ++ [10, 0, 0, 1]

theorem goodAnswer_fits : AnswerFits goodAnswer := by
  have hname : NameInside goodAnswer 12 [1, 97] 3 :=
    .next rfl (by decide) (by decide) (.next rfl (by decide) (by decide) (.stop rfl))
  have htarget : target 0xC0 12 = 12 := by decide
  rw [← htarget] at hname
  refine ⟨2, [1, 97], 2, ⟨rfl, by decide⟩, .jump rfl rfl (by decide) hname, ⟨by decide, by decide⟩, ?_⟩
  exact ⟨by decide, fun _ => ⟨by decide, by decide⟩, fun hne => absurd (by decide) hne⟩

theorem parse_in_bounds_iff_goodAnswer : InBounds zeros 0 ['a'] tA goodAnswer := by
  have htake : goodAnswer.take bigBufferSize = goodAnswer := List.take_of_length_le (by decide)
  have hbuf : Holds (received zeros 0 ['a'] tA goodAnswer) 0 goodAnswer := received_holds zeros 0 ['a'] tA (by decide)
  apply (parse_in_bounds_iff zeros 0 ['a'] tA goodAnswer fun _ => goodAnswer_fits.namesEnd hbuf).2
  rw [htake]
  exact ⟨by decide, fun _ => goodAnswer_fits⟩

theorem nameInside_of_holds {d name : List Byte} {a : ℕ} (hplain : ∀ b ∈ name, PlainByte b)
    (h : name ++ [0] <+: d.drop a) : NameInside d a name (name.length + 1) := by
  induction name generalizing a with
  | nil =>
    obtain ⟨rest, hrest⟩ := h
    apply NameInside.stop
    rw [← List.head?_drop, ← hrest]
    rfl
  | cons b name ih =>
    obtain ⟨rest, hrest⟩ := h
    obtain ⟨hne, hlt⟩ := hplain b List.mem_cons_self
    refine .next ?_ hne hlt (ih (fun c hc => hplain c (List.mem_cons_of_mem b hc)) ⟨rest, ?_⟩)
    · rw [← List.head?_drop, ← hrest]
      rfl
    · rw [← List.tail_drop, ← hrest]
      rfl

theorem NameInside.unique {d name name' : List Byte} {a n n' : ℕ} (h : NameInside d a name n)
    (h' : NameInside d a name' n') : name = name' := by
  have hbuf : Holds (store 0 d fun _ => 0) 0 d := holds_store _ _ _
  obtain ⟨fuel, r, hr⟩ := readBytes_of_span (h.span hbuf) ⟨[], false, 1⟩
  exact (h.readBytes_name hbuf hr).symm.trans (h'.readBytes_name hbuf hr)

/-- a label of 64 bytes, and a length without the bytes it counts -/
def longName : List Byte := 64 :: List.replicate 64 97 ++ [191]

/-- an answer to a query for "a" whose owner name is this one -/
def longAnswer : List Byte :=
  [0, 0, 0x81, 0x80, 0, 1, 0, 1, 0, 0, 0, 0] ++ [1, 97, 0, 0, 1, 0, 1] ++ (longName ++ [0]) ++
    [0, 1, 0, 1, 0, 0, 0, 60, 0, 4] ++ [10, 0, 0, 1]

/-- **Out of bounds.** An empty datagram; and one whose owner name runs over the block of ReadName. -/
theorem stays_not_in_bounds : ¬ InBounds zeros 0 ['a'] tA [] ∧
    NamesEnd (received zeros 0 ['a'] tA longAnswer) ∧ ¬ InBounds zeros 0 ['a'] tA longAnswer := by
  have htake : longAnswer.take bigBufferSize = longAnswer := List.take_of_length_le (by decide)
  have hbuf : Holds (received zeros 0 ['a'] tA longAnswer) 0 longAnswer := received_holds zeros 0 ['a'] tA (by decide)
  have hend : EndsInside longAnswer 12 2 := ⟨rfl, by decide⟩
  have hname : NameInside longAnswer 19 longName 67 := nameInside_of_holds (by decide) (by decide)
  have hfields : ntohs 86 (received zeros 0 ['a'] tA longAnswer) = tA := by
    rw [ntohs_eq_wordAt hbuf (by decide)]
    decide
  have hends : NamesEnd (received zeros 0 ['a'] tA longAnswer) := by
    refine ⟨?_, ?_⟩
    · intro len hlen
      obtain rfl := hlen.unique (hend.endsAfter hbuf)
      exact ⟨67, hname.span hbuf⟩
    · intro len stop hlen hstop hne
      obtain rfl := hlen.unique (hend.endsAfter hbuf)
      obtain rfl := hstop.unique (hname.span hbuf)
      exact absurd hfields hne
  refine ⟨?_, hends, ?_⟩
  · intro h
    have hread : 6 < 0 := h 0 (.packet 6) List.mem_cons_self
    omega
  · intro h
    have hcount : ntohs 6 (received zeros 0 ['a'] tA longAnswer) ≠ 0 := by
      rw [ntohs_eq_wordAt hbuf (by decide)]
      decide
    have hfits : AnswerFits longAnswer := by
      apply answerFits_of_valid hbuf hends (u := zeros)
      intro fuel x hx
      have hvalid := h fuel x
      rw [htake] at hvalid
      apply hvalid
      simp only [queryAccesses, if_neg hcount]
      exact List.mem_cons_of_mem _ (List.mem_cons_of_mem _ hx)
    obtain ⟨len, name, stop, hlen, hin, hfit, -⟩ := hfits
    obtain rfl := (hlen.endsAfter hbuf).unique (hend.endsAfter hbuf)
    rw [hin.unique hname] at hfit
    exact absurd hfit.labels (by decide)

end NetSec.Client
