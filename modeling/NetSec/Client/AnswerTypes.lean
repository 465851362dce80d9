/-
Does only an A record's data become an address?

A well-formed response to a query for a name's address: the question again, then any answer records. Their owner names
are labels of 1 to 63 bytes, ended or continued behind a pointer; the data of an A record has 4 bytes. Where pointers
lead, and the other sections, are left open.

query_dns reads the first record only, whatever its type, and of one that is not an A record it reads the data as a
name. resolve takes the first four bytes of what it gets for an address. `OnlyAddresses` says that this is never
anything but the data of an A record, cached with that record's TTL.

It fails (`cname_is_address`): the CNAME record in front of an A record gives the address "c.d".

- `only_addresses`: it holds when there is no answer, or when the first is an A record. For any other first record it
  fails, but where a name has no end, or where the text happens to be what an A record with the same TTL says. All this
  for a first record whose owner name has no byte that ReadName takes for a pointer or for the end (`Plain`).
-/
import NetSec.Client.DnsQuery

namespace NetSec.Client

open NetSec.Memory NetSec.TtlMap

/-! ## Responses -/

structure Label where
  bytes : List Byte
  nonempty : bytes ≠ []
  short : bytes.length ≤ 63

def Label.wire (l : Label) : List Byte := BitVec.ofNat 8 l.bytes.length :: l.bytes

structure DomainName where
  labels : List Label
  /-- where the name goes on; `none`: it ends here -/
  pointer : Option (BitVec 14)

def DomainName.wire (n : DomainName) : List Byte :=
  n.labels.flatMap Label.wire ++
    match n.pointer with
    | none => [0]
    | some offset => htons (3#2 ++ offset)

/-- no byte inside a label is read as the end or as a pointer -/
def DomainName.Plain (n : DomainName) : Prop := ∀ l ∈ n.labels, ∀ b ∈ l.bytes, PlainByte b

structure AnswerRecord where
  owner : DomainName
  type : BitVec 16
  cls : BitVec 16
  ttl : BitVec 32
  rdata : List Byte
  short : rdata.length < 2 ^ 16
  address : type = tA → rdata.length = 4

/-- the fields between the owner name and the data -/
def AnswerRecord.fixed (a : AnswerRecord) : List Byte :=
  htons a.type ++ (htons a.cls ++ (htonl a.ttl ++ htons (BitVec.ofNat 16 a.rdata.length)))

def AnswerRecord.wire (a : AnswerRecord) : List Byte := a.owner.wire ++ (a.fixed ++ a.rdata)

structure Message where
  id : BitVec 16
  flags : BitVec 16
  authCount : BitVec 16
  addCount : BitVec 16
  answers : List AnswerRecord
  few : answers.length < 2 ^ 16
  /-- the other sections -/
  rest : List Byte

def Message.header (m : Message) : List Byte :=
  htons m.id ++ htons m.flags ++ htons 1 ++ htons (BitVec.ofNat 16 m.answers.length) ++ htons m.authCount ++
    htons m.addCount

/-- the response to a query for the host's address -/
def Message.datagram (m : Message) (host : Text) : List Byte :=
  m.header ++ (qname host ++ [0] ++ (qinfo tA ++ (m.answers.flatMap AnswerRecord.wire ++ m.rest)))

structure Response (host : Text) extends Message where
  fits : (toMessage.datagram host).length ≤ bigBufferSize

def Response.bytes {host : Text} (r : Response host) : List Byte := r.datagram host

/-! ## Properties -/

/-- an address that is fetched is the data of an A record, and is cached with its TTL -/
def OnlyAddresses (u : Uninit) (id : BitVec 16) {host : Text} (r : Response host) : Prop :=
  ∀ fuel t res v res', resolveDatagram fuel u id t host (some r.bytes) res = some (.fetched v, res') → v ≠ -1 →
    ∃ a ∈ r.answers, a.type = tA ∧ a.rdata = hostl v ∧ res'.entries.getLast? = some ⟨host, v, t, a.ttl.toNat⟩

/-- the buffer when the response has come -/
def Response.buf (u : Uninit) (id : BitVec 16) {host : Text} (r : Response host) : Mem := received u id host tA r.bytes

/-- where the data of the first answer starts -/
def dataAt (host : Text) (a : AnswerRecord) : ℕ := recordAt (qname host).length + a.owner.wire.length + 10

/-- the text of the first answer's data is, in its first four bytes, what some A record with the same TTL says -/
def SaidElsewhere (u : Uninit) (id : BitVec 16) {host : Text} (r : Response host) (a : AnswerRecord) : Prop :=
  ∀ fuel text n, readName fuel (dataAt host a) (r.buf u id) u.rdata = some (text, n) →
    ∃ b ∈ r.answers, b.type = tA ∧ b.ttl = a.ttl ∧ b.rdata = load 4 0 text

/-! ## Reading a name -/

theorem nameSpan_append {buffer : Mem} {a n : ℕ} {bytes : List Byte} (hholds : Holds buffer a bytes)
    (hplain : ∀ b ∈ bytes, PlainByte b) (h : NameSpan buffer a n) :
    ∃ m, n = bytes.length + m ∧ NameSpan buffer (a + bytes.length) m := by
  induction bytes generalizing a n with
  | nil => exact ⟨n, by simp, by simpa using h⟩
  | cons b bytes ih =>
    obtain ⟨hb, hholds⟩ := holds_cons.1 hholds
    obtain ⟨hne, hlt⟩ := hplain b List.mem_cons_self
    cases h with
    | stop h0 => exact absurd (hb.symm.trans h0) hne
    | jump hptr _ =>
      rw [hb] at hptr
      omega
    | next _ _ hn =>
      obtain ⟨m, rfl, hm⟩ := ih hholds (fun b hb => hplain b (List.mem_cons_of_mem _ hb)) hn
      refine ⟨m, by rw [List.length_cons]; omega, ?_⟩
      rw [List.length_cons, show a + (bytes.length + 1) = a + 1 + bytes.length by omega]
      exact hm

theorem plain_labels {n : DomainName} (h : n.Plain) : ∀ b ∈ n.labels.flatMap Label.wire, PlainByte b := by
  intro b hb
  obtain ⟨l, hl, hb⟩ := List.mem_flatMap.1 hb
  rcases List.mem_cons.1 hb with rfl | hb
  · have hpos := List.length_pos_iff.2 l.nonempty
    have hshort := l.short
    have hlen : (BitVec.ofNat 8 l.bytes.length).toNat = l.bytes.length := by
      rw [BitVec.toNat_ofNat]
      omega
    refine ⟨?_, by omega⟩
    intro h0
    rw [h0] at hlen
    simp at hlen
    omega
  · exact h l hl b hb

theorem pointer_first (offset : BitVec 14) : 192 ≤ ((3#2 ++ offset).extractLsb' 8 8).toNat := by
  rw [BitVec.extractLsb'_toNat, BitVec.toNat_append, ← Nat.shiftLeft_add_eq_or_of_lt offset.isLt]
  have hlt := offset.isLt
  simp only [Nat.shiftLeft_eq, Nat.shiftRight_eq_div_pow, BitVec.toNat_ofNat]
  omega

/-- **A plain name is passed exactly.** -/
theorem nameSpan_wire {buffer : Mem} {a n : ℕ} {name : DomainName} (hholds : Holds buffer a name.wire)
    (hplain : name.Plain) (h : NameSpan buffer a n) : n = name.wire.length := by
  unfold DomainName.wire at hholds ⊢
  obtain ⟨hlabels, hend⟩ := holds_append.1 hholds
  obtain ⟨m, rfl, hm⟩ := nameSpan_append hlabels (plain_labels hplain) h
  rw [List.length_append, Nat.add_left_cancel_iff]
  cases hpointer : name.pointer with
  | none =>
    rw [hpointer] at hend
    exact hm.unique (.stop (holds_cons.1 hend).1)
  | some offset =>
    rw [hpointer] at hend
    have hfirst : 192 ≤ (buffer (a + (name.labels.flatMap Label.wire).length)).toNat := by
      rw [(holds_cons.1 hend).1]
      exact pointer_first offset
    cases hm with
    | stop h0 => exact absurd h0 (ne_zero_of_le hfirst)
    | jump _ _ => rfl
    | next _ hlt _ => omega

/-! ## Reading the first answer -/

theorem response_holds (u : Uninit) (id : BitVec 16) {host : Text} (r : Response host) :
    Holds (r.buf u id) 0 (r.datagram host) := received_holds u id host tA r.fits

theorem count_eq (u : Uninit) (id : BitVec 16) {host : Text} (r : Response host) :
    ntohs 6 (r.buf u id) = BitVec.ofNat 16 r.answers.length := by
  have hheader : Holds (r.buf u id) 0 r.header := (holds_append.1 (response_holds u id r)).1
  have hcount : Holds (r.buf u id) 6 (htons (BitVec.ofNat 16 r.answers.length)) :=
    (holds_append.1 (holds_append.1 (holds_append.1 hheader).1).1).2
  exact ntohs_of_holds hcount

/-- the answer count, the question's name, and the first answer are where query_dns looks for them -/
theorem first_holds (u : Uninit) (id : BitVec 16) {host : Text} {r : Response host} {a : AnswerRecord}
    (ha : r.answers.head? = some a) : ntohs 6 (r.buf u id) ≠ 0 ∧ EndsAfter (r.buf u id) 12 (qname host).length ∧
      Holds (r.buf u id) (recordAt (qname host).length) a.wire := by
  obtain ⟨more, hanswers⟩ := List.head?_eq_some_iff.1 ha
  have hall := response_holds u id r
  unfold Message.datagram at hall
  obtain ⟨-, hall⟩ := holds_append.1 hall
  obtain ⟨hname, hall⟩ := holds_append.1 hall
  obtain ⟨-, hall⟩ := holds_append.1 hall
  obtain ⟨hwires, -⟩ := holds_append.1 hall
  refine ⟨?_, endsAfter_of_holds hname (zero_not_mem_qname host), ?_⟩
  · rw [count_eq]
    intro h0
    have htoNat := congrArg BitVec.toNat h0
    rw [BitVec.toNat_ofNat, Nat.mod_eq_of_lt r.few, hanswers] at htoNat
    simp at htoNat
  · rw [hanswers, List.flatMap_cons] at hwires
    have hplace : 0 + r.header.length + (qname host ++ [0]).length + (qinfo tA).length =
        recordAt (qname host).length := by
      simp only [List.length_append, recordAt, Message.header, qinfo, htons, List.length_cons, List.length_nil]
    rw [hplace] at hwires
    exact (holds_append.1 hwires).1

/-- **What the first answer is taken for**, when its owner name is plain. -/
theorem first_read (u : Uninit) (id : BitVec 16) {host : Text} {r : Response host} {a : AnswerRecord}
    (ha : r.answers.head? = some a) :
    rData (recordAt (qname host).length + a.owner.wire.length) (r.buf u id) =
      ⟨a.type, a.cls, a.ttl, BitVec.ofNat 16 a.rdata.length⟩ ∧ Holds (r.buf u id) (dataAt host a) a.rdata := by
  obtain ⟨-, -, hwire⟩ := first_holds u id ha
  unfold AnswerRecord.wire AnswerRecord.fixed at hwire
  obtain ⟨-, hwire⟩ := holds_append.1 hwire
  obtain ⟨hfixed, hdata⟩ := holds_append.1 hwire
  exact ⟨rData_of_holds hfixed, hdata⟩

/-- the record that is returned for the first answer -/
theorem first_record {fuel : ℕ} {u : Uninit} {id : BitVec 16} {host : Text} {r : Response host} {a : AnswerRecord}
    (ha : r.answers.head? = some a) (hplain : a.owner.Plain) {rec : ResRecord}
    (h : queryDns fuel u id host tA (some r.bytes) = some (some rec)) :
    (∃ n, NameSpan (r.buf u id) (recordAt (qname host).length) n) ∧
      rec.resource = ⟨a.type, a.cls, a.ttl, BitVec.ofNat 16 a.rdata.length⟩ ∧
      (a.type = tA → rec.rdata = store 0 (a.rdata ++ [0]) u.rdata) ∧
      (a.type ≠ tA → ∃ n, readName fuel (dataAt host a) (r.buf u id) u.rdata = some (rec.rdata, n)) := by
  obtain ⟨-, hname, hwire⟩ := first_holds u id ha
  obtain ⟨hread, hdata⟩ := first_read u id ha
  have hanswer : readAnswer fuel u (r.buf u id) = some rec := (queryDns_eq_record.1 h).2
  obtain ⟨len, stop, hlen, hstop, hresource, haddress, htext⟩ := readAnswer_record hanswer
  obtain rfl := hlen.unique hname
  obtain rfl := nameSpan_wire (holds_append.1 hwire).1 hplain hstop
  rw [hread] at hresource
  rw [hresource] at haddress htext
  refine ⟨⟨_, hstop⟩, hresource, ?_, ?_⟩
  · intro htype
    rw [haddress htype]
    have hshort : (BitVec.ofNat 16 a.rdata.length).toNat = a.rdata.length := by
      rw [BitVec.toNat_ofNat]
      exact Nat.mod_eq_of_lt a.short
    rw [hshort]
    exact congrArg (fun data => store 0 (data ++ [0]) u.rdata) hdata
  · intro htype
    obtain ⟨n, -, hn⟩ := htext htype
    exact ⟨n, hn⟩

/-! ## The first record decides -/

/-- **An A record in front** gives its address and its TTL. -/
theorem onlyAddresses_of_address {u : Uninit} {id : BitVec 16} {host : Text} {r : Response host} {a : AnswerRecord}
    (ha : r.answers.head? = some a) (hplain : a.owner.Plain) (htype : a.type = tA) : OnlyAddresses u id r := by
  intro fuel t res v res' hfetched _
  obtain ⟨-, rec, hrec, rfl, rfl⟩ := resolveDatagram_fetched.1 hfetched
  obtain ⟨-, hresource, haddress, -⟩ := first_record ha hplain hrec
  refine ⟨a, List.mem_of_head? ha, htype, ?_, ?_⟩
  · have hfour : Holds rec.rdata 0 a.rdata := by
      rw [haddress htype]
      exact (holds_append.1 (holds_store 0 (a.rdata ++ [0]) u.rdata)).1
    calc
      a.rdata = load 4 0 rec.rdata := (hfour.load_eq (a.address htype)).symm
      _ = hostl (loadWord 0 rec.rdata) := (hostl_loadWord 0 rec.rdata).symm
  · rw [getLast?_insertEntry, hresource]

/-- **Any other record in front** gives the text of its data for an address. -/
theorem onlyAddresses_iff_of_other {u : Uninit} {id : BitVec 16} {host : Text} {r : Response host} {a : AnswerRecord}
    (ha : r.answers.head? = some a) (hplain : a.owner.Plain) (htype : a.type ≠ tA) :
    OnlyAddresses u id r ↔
      (¬ ∃ n, NameSpan (r.buf u id) (recordAt (qname host).length) n) ∨ SaidElsewhere u id r a := by
  refine ⟨?_, ?_⟩
  · intro h
    by_contra hnot
    obtain ⟨howner, htext⟩ := not_or.1 hnot
    obtain ⟨stop, hstop⟩ := not_not.1 howner
    apply htext
    intro fuel text n hread
    obtain ⟨hcount, hname, hwire⟩ := first_holds u id ha
    have hspan := nameSpan_wire (holds_append.1 hwire).1 hplain hstop
    subst hspan
    -- so the record is read, and its text is this one
    have hreadable : Readable (r.buf u id) := ⟨_, _, hname, hstop, fun _ => ⟨n, readName_span hread⟩⟩
    obtain ⟨fuel', rec, hrec⟩ := (queryDns_record_iff u id host tA r.bytes).2 ⟨hcount, hreadable⟩
    obtain ⟨-, hresource, -, hdata⟩ := first_record ha hplain hrec
    obtain ⟨n', hn'⟩ := hdata htype
    obtain rfl := (readName_unique hread hn').1
    have hfetched : resolveDatagram fuel' u id 0 host (some r.bytes) dnsInit =
        some (.fetched (loadWord 0 rec.rdata), insertEntry host (loadWord 0 rec.rdata) rec.resource.ttl 0 dnsInit) :=
      resolveDatagram_fetched.2 ⟨rfl, rec, hrec, rfl, rfl⟩
    have hnotError : loadWord 0 rec.rdata ≠ -1 := by
      intro herror
      have hbytes := hostl_loadWord 0 rec.rdata
      rw [herror] at hbytes
      have hfirst := readName_first hread
      rw [← (List.cons.inj hbytes).1] at hfirst
      revert hfirst
      decide
    obtain ⟨b, hb, hbtype, hbdata, hlast⟩ := h fuel' 0 dnsInit _ _ hfetched hnotError
    rw [getLast?_insertEntry, hresource] at hlast
    refine ⟨b, hb, hbtype, ?_, ?_⟩
    · simp only [Option.some.injEq, Entry.mk.injEq, true_and] at hlast
      exact (BitVec.eq_of_toNat_eq hlast).symm
    · calc
        b.rdata = hostl (loadWord 0 rec.rdata) := hbdata
        _ = load 4 0 rec.rdata := hostl_loadWord 0 rec.rdata
  · intro h fuel t res v res' hfetched _
    obtain ⟨-, rec, hrec, rfl, rfl⟩ := resolveDatagram_fetched.1 hfetched
    obtain ⟨howner, hresource, -, hdata⟩ := first_record ha hplain hrec
    rcases h with h | h
    · exact absurd howner h
    · obtain ⟨n, hn⟩ := hdata htype
      obtain ⟨b, hb, hbtype, hbttl, hbdata⟩ := h fuel rec.rdata n hn
      refine ⟨b, hb, hbtype, ?_, ?_⟩
      · calc
          b.rdata = load 4 0 rec.rdata := hbdata
          _ = hostl (loadWord 0 rec.rdata) := (hostl_loadWord 0 rec.rdata).symm
      · rw [getLast?_insertEntry, hresource, hbttl]

/-- without answers no record is returned -/
theorem onlyAddresses_of_nil {u : Uninit} {id : BitVec 16} {host : Text} {r : Response host} (h : r.answers = []) :
    OnlyAddresses u id r := by
  intro fuel t res v res' hfetched _
  obtain ⟨-, rec, hrec, -, -⟩ := resolveDatagram_fetched.1 hfetched
  have hcount := count_eq u id r
  rw [h] at hcount
  exact absurd hcount (queryDns_eq_record.1 hrec).1

/-- **The first record decides.** For every well-formed response, with any answer records, whatever memory held: if
there is no answer, or the first has a plain owner name and is an A record, then what is fetched is an A record's data,
cached with its TTL. If the first has a plain owner name and is no A record, then this is so if and only if its owner
name has no end, or some A record with its TTL says what the text of its data begins with. -/
theorem only_addresses (u : Uninit) (id : BitVec 16) {host : Text} (r : Response host) :
    ((∀ a, r.answers.head? = some a → a.owner.Plain ∧ a.type = tA) → OnlyAddresses u id r) ∧
      ∀ a, r.answers.head? = some a → a.owner.Plain → a.type ≠ tA →
        (OnlyAddresses u id r ↔
          (¬ ∃ n, NameSpan (r.buf u id) (recordAt (qname host).length) n) ∨ SaidElsewhere u id r a) := by
  refine ⟨?_, fun a ha hplain htype => onlyAddresses_iff_of_other ha hplain htype⟩
  intro h
  cases hanswers : r.answers.head? with
  | none => exact onlyAddresses_of_nil (List.head?_eq_none_iff.1 hanswers)
  | some a =>
    obtain ⟨hplain, htype⟩ := h a hanswers
    exact onlyAddresses_of_address hanswers hplain htype

/-- h is an alias (type 5) of c.d, whose address is 1.2.3.4 -/
def cnameFirst : Response "h".toList where
  id := 1234
  flags := 0x8180
  authCount := 0
  addCount := 0
  answers :=
    [⟨⟨[], some 12⟩, 5, 1, 5, [1, 99, 1, 100, 0], by decide, by decide⟩,
      ⟨⟨[⟨[99], by decide, by decide⟩, ⟨[100], by decide, by decide⟩], none⟩, tA, 1, 300, [1, 2, 3, 4], by decide,
        by decide⟩]
  few := by decide
  rest := []
  fits := by decide

/-- **A CNAME in front of the A record.** Its text "c.d" and the zero behind it are returned for an address. -/
theorem cname_is_address : (∃ res, resolveDatagram 20 zeros 1234 0 "h".toList (some cnameFirst.bytes) dnsInit =
      some (.fetched 0x00642e63, res) ∧ res.entries = [⟨"h".toList, 0x00642e63, 0, 5⟩]) ∧
    (∀ a ∈ cnameFirst.answers, a.type = tA → a.rdata = [1, 2, 3, 4]) ∧ ¬ OnlyAddresses zeros 1234 cnameFirst := by
  have hfetched : ∃ res, resolveDatagram 20 zeros 1234 0 "h".toList (some cnameFirst.bytes) dnsInit =
      some (.fetched 0x00642e63, res) ∧ res.entries = [⟨"h".toList, 0x00642e63, 0, 5⟩] := ⟨_, rfl, rfl⟩
  have haddress : ∀ a ∈ cnameFirst.answers, a.type = tA → a.rdata = [1, 2, 3, 4] := by
    intro a ha htype
    rcases List.mem_cons.1 ha with rfl | ha
    · exact absurd htype (by decide)
    · rw [List.mem_singleton.1 ha]
  refine ⟨hfetched, haddress, ?_⟩
  intro h
  obtain ⟨res, hres, -⟩ := hfetched
  obtain ⟨a, ha, htype, hdata, -⟩ := h 20 0 dnsInit _ res hres (by decide)
  rw [haddress a ha htype] at hdata
  revert hdata
  decide

end NetSec.Client
