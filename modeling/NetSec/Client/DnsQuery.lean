/-
A query and what is read of its answer: query_dns, fill_dns_from_host, ReadName (client/dnsutils.c, lines 29-216;
DNS_HEADER, QUESTION, R_DATA and RES_RECORD of client/include/dnsutils.h).

`buf` is query_dns's buffer with what follows it in memory. The query is written at its front, the datagram that arrives
over the query, so that what a short datagram leaves is still there. Bytes that were never written (`Uninit`) can be
anything, and so can the datagram.

query_dns runs for at most so many steps of strlen and of ReadName's first loop: `none` means that it has not come back
by then, `some none` that it returned NULL. Writes behind the 256 bytes that ReadName allocates, or behind a short
block for an address, go on here as if there were room.

- `sent_eq`: what is sent;
- `queryDns_record_iff`: a record is returned exactly when the answer count is not 0 and the names at the front of the
  first record, and in the data of one that is not an A record, come to an end (`Readable`);
- `readAnswer_record`: what the record then says;
- `resolveDatagram_fetched`: what resolve then caches;
- `dotted_ended`: ReadName's second loop always ends.
-/
import NetSec.Client.Resolver
import NetSec.Core.Memory

namespace NetSec.Client

open NetSec.Memory NetSec.TtlMap

/-! ## The query -/

/-- `T_A` -/
def tA : BitVec 16 := 1

/-- `RD` -/
def rd : BitVec 16 := 1 <<< 8

/-- `BIG_BUFFER_SIZE` -/
def bigBufferSize : ℕ := 65535

def byte (c : Char) : Byte := BitVec.ofNat 8 c.toNat

/-- the loop of fill_dns_from_host: `label` came after the last dot, its length goes in front of it -/
def fillLabels (label : List Byte) : Text → List Byte
  | [] => BitVec.ofNat 8 label.length :: label ++ [0]
  | c :: host =>
    if c = '.' then BitVec.ofNat 8 label.length :: label ++ fillLabels [] host
    else if c = Text.nul then BitVec.ofNat 8 label.length :: label ++ [0]
    else fillLabels (label ++ [byte c]) host

def fillDnsFromHost (host : Text) : List Byte := fillLabels [] host

/-- the string at `qname` -/
def qname (host : Text) : List Byte := (fillDnsFromHost host).takeWhile (· ≠ 0)

def queryHeader (id : BitVec 16) : List Byte := htons id ++ htons rd ++ htons 1 ++ htons 0 ++ htons 0 ++ htons 0

def qinfo (queryType : BitVec 16) : List Byte := htons queryType ++ htons 1

/-- where the question ends -/
def msgLen (host : Text) : ℕ := 12 + (qname host).length + 1 + 4

/-- `buf` when the query is sent -/
def queryBuf (id : BitVec 16) (host : Text) (queryType : BitVec 16) (buf : Mem) : Mem :=
  store (12 + ((qname host).length + 1)) (qinfo queryType)
    (store 12 (fillDnsFromHost host) (store 0 (queryHeader id) buf))

/-- what is sent -/
def sent (id : BitVec 16) (host : Text) (queryType : BitVec 16) (buf : Mem) : List Byte :=
  load (msgLen host) 0 (queryBuf id host queryType buf)

/-! ## Names -/

/-- where the two bytes at `reader` point to -/
def pointed (reader : ℕ) (buffer : Mem) : ℕ := (buffer reader).toNat * 256 + (buffer (reader + 1)).toNat - 49152

structure Reading where
  name : List Byte
  jumped : Bool
  count : ℕ
deriving DecidableEq, Repr

/-- `name[p++]=*reader`, and the count as long as there was no jump -/
def Reading.push (b : Byte) (r : Reading) : Reading :=
  { r with name := r.name ++ [b], count := if r.jumped then r.count else r.count + 1 }

/-- the first loop of ReadName -/
def readBytes : ℕ → ℕ → Mem → Reading → Option Reading
  | 0, _, _, _ => none
  | fuel + 1, reader, buffer, r =>
    if buffer reader = 0 then some r
    else if 192 ≤ (buffer reader).toNat then readBytes fuel (pointed reader buffer) buffer { r with jumped := true }
    else readBytes fuel (reader + 1) buffer (r.push (buffer reader))

/-- `name[i]=name[i+1]; i=i+1;`, `p` times -/
def shiftLabel : ℕ → ℕ → Mem → ℕ × Mem
  | 0, i, name => (i, name)
  | p + 1, i, name => shiftLabel p (i + 1) (Function.update name i (name (i + 1)))

/-- `i < strlen(name)` -/
def inside (i : ℕ) (name : Mem) : Bool := (List.range (i + 1)).all fun k => name k ≠ 0

/-- the second loop of ReadName, for at most so many rounds -/
def dotLabels : ℕ → ℕ → Mem → ℕ × Mem
  | 0, i, name => (i, name)
  | fuel + 1, i, name =>
    if inside i name then
      let shifted := shiftLabel (name i).toNat i name
      dotLabels fuel (shifted.1 + 1) (Function.update shifted.2 shifted.1 (byte '.'))
    else (i, name)

/-- the second loop on the bytes read, in a block that held `heap`, and the last dot removed -/
def dotted (name : List Byte) (heap : Mem) : Mem :=
  let out := dotLabels (name.length + 1) 0 (store 0 (name ++ [0]) heap)
  if 0 < out.1 then Function.update out.2 (out.1 - 1) 0 else out.2

/-- the text and `*count` -/
def readName (fuel reader : ℕ) (buffer heap : Mem) : Option (Mem × ℕ) :=
  (readBytes fuel reader buffer ⟨[], false, 1⟩).map fun r =>
    (dotted r.name heap, if r.jumped then r.count + 1 else r.count)

/-! ## The answer -/

structure RData where
  type : BitVec 16
  cls : BitVec 16
  ttl : BitVec 32
  dataLen : BitVec 16
deriving DecidableEq, Repr

structure ResRecord where
  name : Mem
  resource : RData
  rdata : Mem

/-- the R_DATA at `reader`, in host order -/
def rData (reader : ℕ) (buf : Mem) : RData :=
  ⟨ntohs reader buf, ntohs (reader + 2) buf, ntohl (reader + 4) buf, ntohs (reader + 8) buf⟩

/-- memory before it is written: what follows `sent` in and behind `buf`, the blocks for the name and for the data -/
structure Uninit where
  buf : Mem
  name : Mem
  rdata : Mem

/-- memory full of zeros -/
def zeros : Uninit := ⟨fun _ => 0, fun _ => 0, fun _ => 0⟩

/-- `buf` after recvfrom -/
def received (u : Uninit) (id : BitVec 16) (host : Text) (queryType : BitVec 16) (datagram : List Byte) : Mem :=
  store 0 (datagram.take bigBufferSize) (queryBuf id host queryType u.buf)

theorem received_holds_take (u : Uninit) (id : BitVec 16) (host : Text) (queryType : BitVec 16)
    (datagram : List Byte) : Holds (received u id host queryType datagram) 0 (datagram.take bigBufferSize) :=
  holds_store 0 _ _

theorem received_holds (u : Uninit) (id : BitVec 16) (host : Text) (queryType : BitVec 16) {datagram : List Byte}
    (h : datagram.length ≤ bigBufferSize) : Holds (received u id host queryType datagram) 0 datagram := by
  have hall := received_holds_take u id host queryType datagram
  rwa [List.take_of_length_le h] at hall

/-- the answers are read from `buf` -/
def readAnswer (fuel : ℕ) (u : Uninit) (buf : Mem) : Option ResRecord := do
  let len ← strlen fuel 12 buf
  let reader := 12 + (len + 1) + 4
  let (name, stop) ← readName fuel reader buf u.name
  let reader := reader + stop
  let data := rData reader buf
  let reader := reader + 10
  if data.type = tA then
    some ⟨name, data, store 0 (load data.dataLen.toNat reader buf ++ [0]) u.rdata⟩
  else
    let (rdata, _) ← readName fuel reader buf u.rdata
    some ⟨name, data, rdata⟩

/-- `datagram` is what arrives; `none` when sendto or recvfrom fails -/
def queryDns (fuel : ℕ) (u : Uninit) (id : BitVec 16) (host : Text) (queryType : BitVec 16)
    (datagram : Option (List Byte)) : Option (Option ResRecord) :=
  match datagram with
  | none => some none
  | some datagram =>
    let buf := received u id host queryType datagram
    -- ans_count is not put in host order, and only compared with 0
    if ntohs 6 buf = 0 then some none
    else (readAnswer fuel u buf).map some

/-! ## resolve with its query -/

/-- what resolve takes from a record: the first four bytes of its data, and its TTL -/
def ResRecord.answer (r : ResRecord) : BitVec 32 × BitVec 32 := (loadWord 0 r.rdata, r.resource.ttl)

/-- one call; `datagram` is what arrives should a query be sent -/
def resolveDatagram (fuel : ℕ) (u : Uninit) (id : BitVec 16) (timestamp : ℤ) (hostname : Text)
    (datagram : Option (List Byte)) (res : DnsResolver) : Option (Answer (BitVec 32) × DnsResolver) :=
  match (scan timestamp hostname res.heap.length res.head res).1 with
  | some _ => some (resolve timestamp hostname none res)
  | none =>
    (queryDns fuel u id hostname tA datagram).map fun r => resolve timestamp hostname (r.map ResRecord.answer) res

theorem rData_of_holds {mem : Mem} {a : ℕ} {type cls len : BitVec 16} {ttl : BitVec 32}
    (h : Holds mem a (htons type ++ (htons cls ++ (htonl ttl ++ htons len)))) :
    rData a mem = ⟨type, cls, ttl, len⟩ := by
  obtain ⟨htype, h⟩ := holds_append.1 h
  obtain ⟨hcls, h⟩ := holds_append.1 h
  obtain ⟨httl, hlen⟩ := holds_append.1 h
  -- the places agree by computation
  have hcls' : ntohs (a + 2) mem = cls := ntohs_of_holds hcls
  have httl' : ntohl (a + 4) mem = ttl := ntohl_of_holds httl
  have hlen' : ntohs (a + 8) mem = len := ntohs_of_holds hlen
  unfold rData
  rw [ntohs_of_holds htype, hcls', httl', hlen']

theorem zero_mem_fillLabels (label : List Byte) (host : Text) : 0 ∈ fillLabels label host := by
  induction host generalizing label with
  | nil => simp [fillLabels]
  | cons c host ih =>
    rw [fillLabels]
    split_ifs
    · exact List.mem_append_right _ (ih [])
    · simp
    · exact ih _

/-- what fill_dns_from_host writes up to its first zero is the name that is asked for -/
theorem fillDnsFromHost_split (host : Text) : ∃ rest, fillDnsFromHost host = qname host ++ [0] ++ rest := by
  have hsplit : qname host ++ (fillDnsFromHost host).dropWhile (· ≠ 0) = fillDnsFromHost host :=
    List.takeWhile_append_dropWhile
  cases hrest : (fillDnsFromHost host).dropWhile (· ≠ 0) with
  | nil =>
    have hall := List.dropWhile_eq_nil_iff.1 hrest 0 (zero_mem_fillLabels [] host)
    simp at hall
  | cons b rest =>
    have hb : b = 0 := by simpa using Text.not_of_dropWhile_cons hrest
    refine ⟨rest, ?_⟩
    calc
      fillDnsFromHost host = qname host ++ 0 :: rest := by rw [← hsplit, hrest, hb]
      _ = qname host ++ [0] ++ rest := by
        rw [List.append_assoc]
        rfl

theorem zero_not_mem_qname (host : Text) : 0 ∉ qname host := fun h => by simpa using List.mem_takeWhile_imp h

/-- **What is sent** is a header with the id, and the name asked for with its type. -/
theorem sent_eq (id : BitVec 16) (host : Text) (queryType : BitVec 16) (buf : Mem) :
    sent id host queryType buf = queryHeader id ++ (qname host ++ [0] ++ qinfo queryType) := by
  obtain ⟨rest, hfill⟩ := fillDnsFromHost_split host
  have hheader : (queryHeader id).length = 12 := rfl
  have h0 : Holds (store 0 (queryHeader id) buf) 0 (queryHeader id) := holds_store _ _ _
  have h12 : Holds (store 12 (fillDnsFromHost host) (store 0 (queryHeader id) buf)) 12 (qname host ++ [0]) := by
    have hstored := holds_store 12 (fillDnsFromHost host) (store 0 (queryHeader id) buf)
    rw [hfill] at hstored ⊢
    exact (holds_append.1 hstored).1
  have hlen : (qname host ++ [0]).length = (qname host).length + 1 := by simp
  have hholds : Holds (queryBuf id host queryType buf) 0
      (queryHeader id ++ (qname host ++ [0] ++ qinfo queryType)) := by
    refine holds_append.2 ⟨?_, holds_append.2 ⟨?_, ?_⟩⟩
    · exact (h0.store (by omega) _).store (by omega) _
    · rw [hheader]
      exact h12.store (by omega) _
    · rw [hheader, hlen]
      exact holds_store _ _ _
  apply hholds.load_eq
  simp only [List.length_append, hheader, msgLen, qinfo, htons, List.length_cons, List.length_nil]
  omega

/-! ## Where names end -/

/-- the name at a place ends, and takes so many bytes of that place -/
inductive NameSpan (buffer : Mem) : ℕ → ℕ → Prop
  | stop {a : ℕ} (h : buffer a = 0) : NameSpan buffer a 1
  | jump {a n : ℕ} (h : 192 ≤ (buffer a).toNat) (hn : NameSpan buffer (pointed a buffer) n) : NameSpan buffer a 2
  | next {a n : ℕ} (h0 : buffer a ≠ 0) (h : (buffer a).toNat < 192) (hn : NameSpan buffer (a + 1) n) :
    NameSpan buffer a (n + 1)

theorem ne_zero_of_le {b : Byte} (h : 192 ≤ b.toNat) : b ≠ 0 := by
  rintro rfl
  simp at h

theorem NameSpan.unique {buffer : Mem} {a n n' : ℕ} (h : NameSpan buffer a n) (h' : NameSpan buffer a n') : n = n' := by
  induction h generalizing n' with
  | stop h =>
    cases h' with
    | stop _ => rfl
    | jump hj _ => exact absurd h (ne_zero_of_le hj)
    | next h0 _ _ => exact absurd h h0
  | jump h _ _ =>
    cases h' with
    | stop h0 => exact absurd h0 (ne_zero_of_le h)
    | jump _ _ => rfl
    | next _ hlt _ => omega
  | next h0 h _ ih =>
    cases h' with
    | stop hs => exact absurd hs h0
    | jump hj _ => omega
    | next _ _ hn => rw [ih hn]

/-- the loop ends where the name ends, and `*count` comes to the bytes it took before the first jump -/
theorem readBytes_span {fuel a : ℕ} {buffer : Mem} {r r' : Reading} (h : readBytes fuel a buffer r = some r') :
    ∃ n, NameSpan buffer a n ∧
      (if r'.jumped then r'.count + 1 else r'.count) + 1 = if r.jumped then r.count + 2 else r.count + n := by
  induction fuel generalizing a r with
  | zero => cases h
  | succ fuel ih =>
    rw [readBytes] at h
    split_ifs at h with h0 hptr
    · obtain rfl := Option.some.inj h
      refine ⟨1, .stop h0, ?_⟩
      split_ifs <;> rfl
    · obtain ⟨n, hn, hcount⟩ := ih h
      refine ⟨2, .jump hptr hn, ?_⟩
      simp only [if_true] at hcount
      split_ifs at hcount ⊢ <;> omega
    · obtain ⟨n, hn, hcount⟩ := ih h
      refine ⟨n + 1, .next h0 (by omega) hn, ?_⟩
      simp only [Reading.push] at hcount
      split_ifs at hcount ⊢ <;> omega

theorem readBytes_of_span {buffer : Mem} {a n : ℕ} (h : NameSpan buffer a n) (r : Reading) :
    ∃ fuel r', readBytes fuel a buffer r = some r' := by
  induction h generalizing r with
  | stop h => exact ⟨1, r, by rw [readBytes, if_pos h]⟩
  | jump h _ ih =>
    obtain ⟨fuel, r', hr⟩ := ih { r with jumped := true }
    exact ⟨fuel + 1, r', by rw [readBytes, if_neg (ne_zero_of_le h), if_pos h, hr]⟩
  | @next a n h0 h _ ih =>
    obtain ⟨fuel, r', hr⟩ := ih (r.push (buffer a))
    exact ⟨fuel + 1, r', by rw [readBytes, if_neg h0, if_neg (by omega), hr]⟩

theorem readBytes_mono {fuel fuel' a : ℕ} {buffer : Mem} {r r' : Reading} (h : readBytes fuel a buffer r = some r')
    (hle : fuel ≤ fuel') : readBytes fuel' a buffer r = some r' := by
  induction fuel generalizing fuel' a r with
  | zero => cases h
  | succ fuel ih =>
    obtain ⟨fuel', rfl⟩ : ∃ f, fuel' = f + 1 := ⟨fuel' - 1, by omega⟩
    rw [readBytes] at h ⊢
    split_ifs at h ⊢
    · exact h
    · exact ih h (by omega)
    · exact ih h (by omega)

theorem readName_span {fuel a n : ℕ} {buffer heap text : Mem} (h : readName fuel a buffer heap = some (text, n)) :
    NameSpan buffer a n := by
  obtain ⟨r, hr, hres⟩ := Option.map_eq_some_iff.1 h
  obtain ⟨m, hm, hcount⟩ := readBytes_span hr
  have hn := congrArg Prod.snd hres
  simp only at hn
  rw [hn] at hcount
  simp only [Bool.false_eq_true, if_false] at hcount
  obtain rfl : n = m := by omega
  exact hm

/-- **ReadName comes back exactly from names that end.** -/
theorem readName_of_span {a n : ℕ} {buffer : Mem} (h : NameSpan buffer a n) (heap : Mem) :
    ∃ fuel text, ∀ fuel', fuel ≤ fuel' → readName fuel' a buffer heap = some (text, n) := by
  obtain ⟨fuel, r, hr⟩ := readBytes_of_span h ⟨[], false, 1⟩
  have hread : ∃ out, ∀ fuel', fuel ≤ fuel' → readName fuel' a buffer heap = some out :=
    ⟨_, fun fuel' hle => by rw [readName, readBytes_mono hr hle, Option.map_some]⟩
  obtain ⟨⟨text, m⟩, hout⟩ := hread
  obtain rfl := h.unique (readName_span (hout fuel le_rfl))
  exact ⟨fuel, text, hout⟩

/-- how long ReadName runs does not matter once it comes back -/
theorem readName_unique {fuel fuel' a n n' : ℕ} {buffer heap text text' : Mem}
    (h : readName fuel a buffer heap = some (text, n)) (h' : readName fuel' a buffer heap = some (text', n')) :
    text = text' ∧ n = n' := by
  obtain ⟨r, hr, hout⟩ := Option.map_eq_some_iff.1 h
  obtain ⟨r', hr', hout'⟩ := Option.map_eq_some_iff.1 h'
  have hmost := readBytes_mono hr (Nat.le_max_left fuel fuel')
  rw [readBytes_mono hr' (Nat.le_max_right fuel fuel')] at hmost
  rw [Option.some.inj hmost] at hout'
  exact Prod.mk.inj (hout.symm.trans hout')

/-! ## The text of a name -/

theorem inside_eq_true {i : ℕ} {name : Mem} : inside i name = true ↔ ∀ k ≤ i, name k ≠ 0 := by
  simp [inside]

@[simp] theorem shiftLabel_fst (p i : ℕ) (name : Mem) : (shiftLabel p i name).1 = i + p := by
  induction p generalizing i name with
  | zero => rfl
  | succ p ih =>
    rw [shiftLabel, ih]
    omega

theorem shiftLabel_front {p i k : ℕ} (h : k < i) (name : Mem) : (shiftLabel p i name).2 k = name k := by
  induction p generalizing i name with
  | zero => rfl
  | succ p ih => rw [shiftLabel, ih (by omega), Function.update_of_ne (by omega)]

theorem shiftLabel_behind {p i k : ℕ} (h : i + p ≤ k) (name : Mem) : (shiftLabel p i name).2 k = name k := by
  induction p generalizing i name with
  | zero => rfl
  | succ p ih => rw [shiftLabel, ih (by omega), Function.update_of_ne (by omega)]

theorem shiftLabel_moved {p i k : ℕ} (h : i ≤ k) (h' : k < i + p) (name : Mem) :
    (shiftLabel p i name).2 k = name (k + 1) := by
  induction p generalizing i name with
  | zero => omega
  | succ p ih =>
    rw [shiftLabel]
    by_cases hk : k = i
    · subst hk
      rw [shiftLabel_front (by omega), Function.update_self]
    · rw [ih (by omega) (by omega), Function.update_of_ne (by omega)]

/-- **The second loop ends** in fewer rounds than there are bytes in front of a zero: a label that runs over the zero
moves it to the front, where the loop finds it. -/
theorem dotLabels_ended {fuel i z : ℕ} {name : Mem} (hz : name z = 0) (hlt : z < i + fuel) (hfuel : 0 < fuel) :
    inside (dotLabels fuel i name).1 (dotLabels fuel i name).2 = false := by
  induction fuel generalizing i z name with
  | zero => omega
  | succ fuel ih =>
    rw [dotLabels]
    by_cases hin : inside i name = true
    · rw [if_pos hin]
      simp only [shiftLabel_fst]
      have hiz : i < z := by
        by_contra hle
        exact inside_eq_true.1 hin z (by omega) hz
      by_cases hover : z ≤ i + (name i).toNat
      · refine ih (z := z - 1) ?_ (by omega) (by omega)
        rw [Function.update_of_ne (by omega), shiftLabel_moved (by omega) (by omega), Nat.sub_add_cancel (by omega)]
        exact hz
      · refine ih (z := z) ?_ (by omega) (by omega)
        rw [Function.update_of_ne (by omega), shiftLabel_behind (by omega)]
        exact hz
    · rw [if_neg hin]
      simpa using hin

/-- so the rounds that `dotted` gives it are enough -/
theorem dotted_ended (name : List Byte) (heap : Mem) :
    inside (dotLabels (name.length + 1) 0 (store 0 (name ++ [0]) heap)).1
      (dotLabels (name.length + 1) 0 (store 0 (name ++ [0]) heap)).2 = false := by
  have hzero : store 0 (name ++ [0]) heap (0 + name.length) = 0 :=
    (holds_cons.1 (holds_append.1 (holds_store 0 (name ++ [0]) heap)).2).1
  exact dotLabels_ended hzero (by omega) (by omega)

theorem dotLabels_of_not_inside {i : ℕ} {name : Mem} (h : inside i name = false) (fuel : ℕ) :
    dotLabels fuel i name = (i, name) := by
  cases fuel with
  | zero => rfl
  | succ fuel => rw [dotLabels, if_neg (by simp [h])]

/-- the loop leaves what it has passed -/
theorem dotLabels_front (fuel i : ℕ) (name : Mem) : i ≤ (dotLabels fuel i name).1 ∧
    ∀ k < i, (dotLabels fuel i name).2 k = name k := by
  induction fuel generalizing i name with
  | zero => exact ⟨le_rfl, fun _ _ => rfl⟩
  | succ fuel ih =>
    rw [dotLabels]
    split_ifs with hin
    · obtain ⟨hle, hfront⟩ := ih ((shiftLabel (name i).toNat i name).1 + 1)
        (Function.update (shiftLabel (name i).toNat i name).2 (shiftLabel (name i).toNat i name).1 (byte '.'))
      rw [shiftLabel_fst] at hle hfront
      simp only [shiftLabel_fst]
      refine ⟨by omega, ?_⟩
      intro k hk
      rw [hfront k (by omega), Function.update_of_ne (by omega), shiftLabel_front hk]
    · exact ⟨le_rfl, fun _ _ => rfl⟩

/-- a byte that is read as itself -/
def PlainByte (b : Byte) : Prop := b ≠ 0 ∧ b.toNat < 192

instance (b : Byte) : Decidable (PlainByte b) := inferInstanceAs (Decidable (b ≠ 0 ∧ b.toNat < 192))

theorem readBytes_plain {fuel a : ℕ} {buffer : Mem} {r r' : Reading} (h : readBytes fuel a buffer r = some r')
    (hr : ∀ b ∈ r.name, PlainByte b) : ∀ b ∈ r'.name, PlainByte b := by
  induction fuel generalizing a r with
  | zero => cases h
  | succ fuel ih =>
    rw [readBytes] at h
    split_ifs at h with h0 hptr
    · exact Option.some.inj h ▸ hr
    · exact ih h hr
    · apply ih h
      intro b hb
      rcases List.mem_append.1 hb with hb | hb
      · exact hr b hb
      · rw [List.mem_singleton.1 hb]
        exact ⟨h0, by omega⟩

/-- **The first byte of a text.** It is none of those that are read as pointers. -/
theorem dotted_first {name : List Byte} (hplain : ∀ b ∈ name, PlainByte b) (heap : Mem) :
    (dotted name heap 0).toNat < 192 := by
  unfold dotted
  have hholds := holds_store 0 (name ++ [0]) heap
  generalize store 0 (name ++ [0]) heap = mem at hholds ⊢
  cases name with
  | nil =>
    have h0 : mem 0 = 0 := (holds_cons.1 hholds).1
    have hout : inside 0 mem = false := by
      rw [Bool.eq_false_iff]
      exact fun hin => inside_eq_true.1 hin 0 le_rfl h0
    rw [dotLabels_of_not_inside hout]
    simp [h0]
  | cons b name =>
    rw [List.cons_append, holds_cons] at hholds
    obtain ⟨h0, hrest⟩ := hholds
    -- the byte behind the first length is in the name, or the zero
    have h1 : (mem 1).toNat < 192 := by
      cases name with
      | nil => rw [(holds_cons.1 hrest).1]; decide
      | cons c name =>
        rw [(holds_cons.1 hrest).1]
        exact (hplain c (by simp)).2
    have hb := hplain b List.mem_cons_self
    have hpos : 0 < (mem 0).toNat := by
      rw [h0, Nat.pos_iff_ne_zero]
      exact fun hzero => hb.1 (BitVec.eq_of_toNat_eq hzero)
    have hin : inside 0 mem = true := by
      rw [inside_eq_true]
      intro k hk
      rw [Nat.le_zero.1 hk, h0]
      exact hb.1
    rw [List.length_cons, dotLabels, if_pos hin]
    simp only [shiftLabel_fst]
    generalize hnext : Function.update (shiftLabel (mem 0).toNat 0 mem).2 (0 + (mem 0).toNat) (byte '.') = next
    have hnext0 : next 0 = mem 1 := by
      rw [← hnext, Function.update_of_ne (by omega), shiftLabel_moved le_rfl (by omega)]
    obtain ⟨hle, hfront⟩ := dotLabels_front (name.length + 1) (0 + (mem 0).toNat + 1) next
    rw [if_pos (by omega), Function.update_of_ne (by omega), hfront 0 (by omega), hnext0]
    exact h1

theorem readName_first {fuel a n : ℕ} {buffer heap text : Mem} (h : readName fuel a buffer heap = some (text, n)) :
    (text 0).toNat < 192 := by
  obtain ⟨r, hr, hres⟩ := Option.map_eq_some_iff.1 h
  obtain rfl : dotted r.name heap = text := congrArg Prod.fst hres
  exact dotted_first (readBytes_plain hr (by simp)) heap

/-! ## Records -/

/-- where the first record starts, behind a question whose name is so long -/
def recordAt (len : ℕ) : ℕ := 12 + (len + 1) + 4

/-- the first record can be read to its end: the name at its front and, unless it is an A record, the name in its data
-/
def Readable (buf : Mem) : Prop :=
  ∃ len stop, EndsAfter buf 12 len ∧ NameSpan buf (recordAt len) stop ∧
    (ntohs (recordAt len + stop) buf ≠ tA → ∃ n, NameSpan buf (recordAt len + stop + 10) n)

/-- **What a record says.** -/
theorem readAnswer_record {fuel : ℕ} {u : Uninit} {buf : Mem} {r : ResRecord} (h : readAnswer fuel u buf = some r) :
    ∃ len stop, EndsAfter buf 12 len ∧ NameSpan buf (recordAt len) stop ∧
      r.resource = rData (recordAt len + stop) buf ∧
      (r.resource.type = tA →
        r.rdata = store 0 (load r.resource.dataLen.toNat (recordAt len + stop + 10) buf ++ [0]) u.rdata) ∧
      (r.resource.type ≠ tA →
        ∃ n, NameSpan buf (recordAt len + stop + 10) n ∧
          readName fuel (recordAt len + stop + 10) buf u.rdata = some (r.rdata, n)) := by
  simp only [readAnswer, Option.bind_eq_bind, Option.bind_eq_some_iff] at h
  obtain ⟨len, hlen, ⟨name, stop⟩, hname, h⟩ := h
  refine ⟨len, stop, (strlen_eq_some.1 hlen).2, readName_span hname, ?_⟩
  split_ifs at h with htype
  · obtain rfl := Option.some.inj h
    exact ⟨rfl, fun _ => rfl, fun hne => absurd htype hne⟩
  · obtain ⟨⟨rdata, n⟩, hrdata, h⟩ := Option.bind_eq_some_iff.1 h
    obtain rfl := Option.some.inj h
    exact ⟨rfl, fun he => absurd he htype, fun _ => ⟨n, readName_span hrdata, hrdata⟩⟩

/-- **When a record is read.** -/
theorem readAnswer_iff (u : Uninit) (buf : Mem) : (∃ fuel r, readAnswer fuel u buf = some r) ↔ Readable buf := by
  refine ⟨?_, ?_⟩
  · intro ⟨fuel, r, h⟩
    obtain ⟨len, stop, hlen, hstop, hdata, -, htext⟩ := readAnswer_record h
    refine ⟨len, stop, hlen, hstop, ?_⟩
    intro hne
    rw [hdata] at htext
    obtain ⟨n, hn, -⟩ := htext hne
    exact ⟨n, hn⟩
  · intro ⟨len, stop, hlen, hstop, htext⟩
    obtain ⟨fuel, name, hname⟩ := readName_of_span hstop u.name
    by_cases htype : ntohs (recordAt len + stop) buf = tA
    · let most := max fuel (len + 1)
      let data := load (ntohs (recordAt len + stop + 8) buf).toNat (recordAt len + stop + 10) buf
      refine ⟨most, ⟨name, rData (recordAt len + stop) buf, store 0 (data ++ [0]) u.rdata⟩, ?_⟩
      have hstrlen : strlen most 12 buf = some len := strlen_eq_some.2 ⟨by omega, hlen⟩
      have hread := hname most (by omega)
      unfold recordAt at hread htype
      simp only [readAnswer, Option.bind_eq_bind, hstrlen, hread, Option.bind_some, rData, if_pos htype, recordAt, data]
    · obtain ⟨n, hn⟩ := htext htype
      obtain ⟨fuel', text, hdata⟩ := readName_of_span hn u.rdata
      let most := max (max fuel fuel') (len + 1)
      refine ⟨most, ⟨name, rData (recordAt len + stop) buf, text⟩, ?_⟩
      have hstrlen : strlen most 12 buf = some len := strlen_eq_some.2 ⟨by omega, hlen⟩
      have hread := hname most (by omega)
      have hread' := hdata most (by omega)
      unfold recordAt at hread hread' htype
      simp only [readAnswer, Option.bind_eq_bind, hstrlen, hread, hread', Option.bind_some, rData, if_neg htype,
        recordAt]

/-! ### More steps -/

theorem readName_mono {fuel fuel' a : ℕ} {buffer heap : Mem} {out : Mem × ℕ} (h : readName fuel a buffer heap = some out)
    (hle : fuel ≤ fuel') : readName fuel' a buffer heap = some out := by
  obtain ⟨r, hr, hout⟩ := Option.map_eq_some_iff.1 h
  rw [readName, readBytes_mono hr hle, Option.map_some, hout]

theorem readAnswer_mono {fuel fuel' : ℕ} {u : Uninit} {buf : Mem} {r : ResRecord} (h : readAnswer fuel u buf = some r)
    (hle : fuel ≤ fuel') : readAnswer fuel' u buf = some r := by
  simp only [readAnswer, Option.bind_eq_bind, Option.bind_eq_some_iff] at h
  obtain ⟨len, hlen, ⟨name, stop⟩, hname, h⟩ := h
  have hstrlen : strlen fuel' 12 buf = some len := by
    obtain ⟨hlt, hends⟩ := strlen_eq_some.1 hlen
    exact strlen_eq_some.2 ⟨hlt.trans_le hle, hends⟩
  have howner := readName_mono hname hle
  simp only [readAnswer, Option.bind_eq_bind, hstrlen, howner, Option.bind_some]
  split_ifs at h ⊢ with htype
  · exact h
  · obtain ⟨⟨rdata, n⟩, hrdata, h⟩ := Option.bind_eq_some_iff.1 h
    rw [readName_mono hrdata hle]
    exact h

theorem queryDns_mono {fuel fuel' : ℕ} {u : Uninit} {id : BitVec 16} {host : Text} {queryType : BitVec 16}
    {datagram : Option (List Byte)} {r : Option ResRecord} (h : queryDns fuel u id host queryType datagram = some r)
    (hle : fuel ≤ fuel') : queryDns fuel' u id host queryType datagram = some r := by
  cases datagram with
  | none => exact h
  | some datagram =>
    simp only [queryDns] at h ⊢
    split_ifs at h ⊢
    · exact h
    · obtain ⟨rec, hrec, rfl⟩ := Option.map_eq_some_iff.1 h
      rw [readAnswer_mono hrec hle, Option.map_some]

theorem queryDns_eq_record {fuel : ℕ} {u : Uninit} {id : BitVec 16} {host : Text} {queryType : BitVec 16}
    {datagram : List Byte} {r : ResRecord} : queryDns fuel u id host queryType (some datagram) = some (some r) ↔
      ntohs 6 (received u id host queryType datagram) ≠ 0 ∧
        readAnswer fuel u (received u id host queryType datagram) = some r := by
  unfold queryDns
  simp only
  split_ifs with hcount
  · apply iff_of_false (by simp)
    intro ⟨hne, _⟩
    exact hne hcount
  · rw [and_iff_right hcount]
    simp

/-- **When query_dns returns a record.** -/
theorem queryDns_record_iff (u : Uninit) (id : BitVec 16) (host : Text) (queryType : BitVec 16) (datagram : List Byte) :
    (∃ fuel r, queryDns fuel u id host queryType (some datagram) = some (some r)) ↔
      ntohs 6 (received u id host queryType datagram) ≠ 0 ∧ Readable (received u id host queryType datagram) := by
  rw [← readAnswer_iff u]
  simp only [queryDns_eq_record, exists_and_left]

/-- **What resolve does with a datagram.** On a miss, the address and the TTL of the record go into the cache. -/
theorem resolveDatagram_fetched {fuel : ℕ} {u : Uninit} {id : BitVec 16} {t : ℤ} {hostname : Text}
    {datagram : Option (List Byte)} {res res' : DnsResolver} {v : BitVec 32} :
    resolveDatagram fuel u id t hostname datagram res = some (.fetched v, res') ↔
      (scan t hostname res.heap.length res.head res).1 = none ∧
      ∃ r, queryDns fuel u id hostname tA datagram = some (some r) ∧ v = loadWord 0 r.rdata ∧
        res' = insertEntry hostname v r.resource.ttl t (scan t hostname res.heap.length res.head res).2 := by
  unfold resolveDatagram resolve
  rcases scan t hostname res.heap.length res.head res with ⟨found, res₁⟩
  cases found with
  | some e => simp
  | none =>
    simp only [Option.map_eq_some_iff, true_and]
    refine ⟨?_, ?_⟩
    · intro ⟨r, hr, h⟩
      cases r with
      | none => simp at h
      | some r =>
        simp only [Option.map_some, ResRecord.answer, Prod.mk.injEq, Answer.fetched.injEq] at h
        obtain ⟨rfl, rfl⟩ := h
        exact ⟨r, hr, rfl, rfl⟩
    · rintro ⟨r, hr, rfl, rfl⟩
      exact ⟨some r, hr, rfl⟩

end NetSec.Client
