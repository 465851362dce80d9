/-
Does the resolver believe only the answer to the query it has just sent?

Any datagram that comes to the query's socket is taken for the answer. `Genuine` is what query_dns means to check under
"check id, ans_count, etc": a response (QR) with the id of the query, whose question is the name and the type asked for.
`OnlyGenuine` says that an address gets into the cache only from a genuine datagram.

It fails (`forged_is_cached`): of id, ans_count, etc. only ans_count is checked.

- `only_genuine_iff`: of all datagrams, exactly those that count no answer, whose first record cannot be read to its
  end, or that are genuine do no harm. Every other one gets into the cache.
-/
import NetSec.Client.DnsQuery

namespace NetSec.Client

open NetSec.Memory NetSec.TtlMap

/-- a response to the query with this id and name for an A record -/
structure Genuine (id : BitVec 16) (host : Text) (datagram : List Byte) : Prop where
  qr : ∃ flags, datagram[2]? = some flags ∧ flags.msb
  id : datagram.take 2 = htons id
  qCount : (datagram.drop 4).take 2 = htons 1
  question : (datagram.drop 12).take ((qname host).length + 3) = qname host ++ [0] ++ htons tA

instance (id : BitVec 16) (host : Text) (datagram : List Byte) : Decidable (Genuine id host datagram) :=
  decidable_of_iff ((datagram[2]?.any BitVec.msb) = true ∧ datagram.take 2 = htons id ∧
      (datagram.drop 4).take 2 = htons 1 ∧
      (datagram.drop 12).take ((qname host).length + 3) = qname host ++ [0] ++ htons tA) (by
    rw [Option.any_eq_true]
    exact ⟨fun h => ⟨h.1, h.2.1, h.2.2.1, h.2.2.2⟩, fun h => ⟨h.qr, h.id, h.qCount, h.question⟩⟩)

/-- what is sent would be genuine, were QR set -/
theorem genuine_sent (id : BitVec 16) (host : Text) (buf : Mem) {flags : Byte} (h : flags.msb) :
    Genuine id host ((sent id host tA buf).set 2 flags) := by
  rw [sent_eq]
  refine ⟨⟨flags, rfl, h⟩, rfl, rfl, ?_⟩
  have hquestion : ((queryHeader id ++ (qname host ++ [0] ++ qinfo tA)).set 2 flags).drop 12 =
      (qname host ++ [0] ++ htons tA) ++ htons 1 := by
    rw [List.append_assoc (qname host ++ [0])]
    rfl
  rw [hquestion]
  exact List.take_left' (by simp [htons])

/-- an address is cached from a genuine datagram only -/
def OnlyGenuine (u : Uninit) (id : BitVec 16) (host : Text) (datagram : List Byte) : Prop :=
  ∀ fuel t res v res', resolveDatagram fuel u id t host (some datagram) res = some (.fetched v, res') →
    Genuine id host datagram

/-- **Every datagram with an answer that can be read is believed.** For every datagram that can arrive, over whatever
buf held: an address is cached from it only if it is the answer to the query just sent, if and only if it counts no
answer, or its first record cannot be read to its end, or it is the answer. -/
theorem only_genuine_iff (u : Uninit) (id : BitVec 16) (host : Text) (datagram : List Byte) :
    OnlyGenuine u id host datagram ↔
      ntohs 6 (received u id host tA datagram) = 0 ∨ ¬ Readable (received u id host tA datagram) ∨
        Genuine id host datagram := by
  have hrecord := queryDns_record_iff u id host tA datagram
  refine ⟨?_, ?_⟩
  · intro h
    by_contra hnot
    obtain ⟨hcount, hnot⟩ := not_or.1 hnot
    obtain ⟨hreadable, hforeign⟩ := not_or.1 hnot
    obtain ⟨fuel, r, hr⟩ := hrecord.2 ⟨hcount, not_not.1 hreadable⟩
    -- an empty table has nothing to serve
    have hfetched : resolveDatagram fuel u id 0 host (some datagram) dnsInit =
        some (.fetched (loadWord 0 r.rdata), insertEntry host (loadWord 0 r.rdata) r.resource.ttl 0 dnsInit) :=
      resolveDatagram_fetched.2 ⟨rfl, r, hr, rfl, rfl⟩
    exact hforeign (h fuel 0 dnsInit _ _ hfetched)
  · intro h fuel t res v res' hfetched
    obtain ⟨-, r, hr, -⟩ := resolveDatagram_fetched.1 hfetched
    obtain ⟨hcount, hreadable⟩ := hrecord.1 ⟨fuel, r, hr⟩
    rcases h with h | h | h
    · exact absurd h hcount
    · exact absurd hreadable h
    · exact h

/-- a query for x with the id 0, and the address 6.6.6.6 for 300 seconds -/
def forgedAnswer : List Byte :=
  [0, 0, 0, 0, 0, 1, 0, 1, 0, 0, 0, 0] ++ [1, 120, 0, 0, 1, 0, 1] ++
    [192, 12, 0, 1, 0, 1, 0, 0, 1, 44, 0, 4, 6, 6, 6, 6]

/-- **A forged answer is cached.** The query has the id 1234 and asks for h. -/
theorem forged_is_cached : ¬ Genuine 1234 "h".toList forgedAnswer ∧
    (∃ res, resolveDatagram 20 zeros 1234 0 "h".toList (some forgedAnswer) dnsInit = some (.fetched 0x06060606, res) ∧
      res.entries = [⟨"h".toList, 0x06060606, 0, 300⟩]) ∧
    ¬ OnlyGenuine zeros 1234 "h".toList forgedAnswer := by
  have hcached : ∃ res, resolveDatagram 20 zeros 1234 0 "h".toList (some forgedAnswer) dnsInit =
      some (.fetched 0x06060606, res) ∧ res.entries = [⟨"h".toList, 0x06060606, 0, 300⟩] := ⟨_, rfl, rfl⟩
  have hforeign : ¬ Genuine 1234 "h".toList forgedAnswer := by decide
  refine ⟨hforeign, hcached, ?_⟩
  intro h
  obtain ⟨res, hres, -⟩ := hcached
  exact hforeign (h 20 0 dnsInit _ res hres)

end NetSec.Client
