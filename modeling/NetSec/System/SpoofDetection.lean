/-
The spoofer against the hop count filter (client/spoofer.c, spawn_spoofer; DNS/DNSHopCount.py).

The filter goes by the first packet it judges of each source: it is a monitor of first values (`observed`, `fits`), over
all packets in any order, as long as every NAT_update succeeds: one that raises leaves `banned` as it was.

spawn_spoofer writes TCP headers into packets whose protocol is UDP's: the filter reads the ports from where both
headers have them, so that every packet is one to port 53 from the forged source. `arrived` is what gets to the filter
after `d` routers, each of which takes one off the TTL; of what the filter reads the kernel writes nothing but the total
length, which it puts right.

- `filter_by_first`: in every run a judged packet is accepted exactly when its source has a first packet that its TTL
  fits, and one BAN is sent for each source that has ever sent one which does not;
- `spoofing_detected`: a spoofer's packets are accepted or not as their TTLs fit the first packet of the true source,
  whatever else comes in between, and the source is banned, once, exactly when one of them does not.
-/
import NetSec.Client.PacketDecoding
import NetSec.Core.FirstSeen
import NetSec.Filter.StaysBanned
import NetSec.NatServer.LeaseKey

namespace NetSec.System

open NetSec.Client NetSec.Filter NetSec.FirstSeen NetSec.Memory NetSec.NatServer NetSec.Run

/-! ## The filter as a monitor -/

/-- what the filter takes notice of: source and TTL of the packets that it judges -/
def observed (pkts : List Packet) : List (Text × Fin 256) :=
  (pkts.filter fun p => Judged p).map fun p => (p.src.text, p.ttl)

def fits (hopSaved hopCurr : Fin 256) : Bool := hopsMatch hopSaved hopCurr

/-- the messages to the NAT server for a packet -/
def sentFor (t : Tables) (p : Packet) : List Text := ((handlePacket p t).2.bind Handled.sent).toList

/-- the dictionaries hold what the monitor remembers -/
structure Remembers (t : Tables) (m : Seen Text (Fin 256)) : Prop where
  hops : ∀ src, t.hops src = (m.first src).map Fin.val
  banned : t.banned = m.alarmed

theorem observed_append (a b : List Packet) : observed (a ++ b) = observed a ++ observed b := by
  simp [observed]

theorem observed_singleton (p : Packet) : observed [p] = if Judged p then [(p.src.text, p.ttl)] else [] := by
  unfold observed
  split_ifs with h <;> simp [h]

theorem banMessage_injective : Function.Injective banMessage := fun _ _ h => List.append_cancel_left h

/-- **One packet.** The filter does what the monitor does. -/
theorem packet_remembers {t t' : Tables} {m : Seen Text (Fin 256)} {p : Packet} (h : Remembers t m)
    (hs : packetStep t p = some t') :
    Remembers t' (m.after fits (observed [p])) ∧ sentFor t p = (m.alarms fits (observed [p])).map banMessage := by
  obtain rfl := Option.some.inj hs
  rw [observed_singleton, sentFor]
  split_ifs with hj
  · have hhops := h.hops p.src.text
    have hbanned : t.banned p.src.text = m.alarmed p.src.text := by rw [h.banned]
    rw [handlePacket_judged hj]
    simp only [Option.map_some, Option.getD_some, Option.bind_some, Seen.after, List.foldl_cons, List.foldl_nil]
    cases hfirst : m.first p.src.text with
    | none =>
      rw [hfirst, Option.map_none] at hhops
      have hdns : handleDns p t = ⟨none, none, { t with hops := Function.update t.hops p.src.text (some p.ttl) }⟩ := by
        simp only [handleDns, hhops]
      have halarms : m.alarms fits [(p.src.text, p.ttl)] = [] := by simp [alarms_singleton, Seen.odd, hfirst]
      rw [hdns, observe_fresh hfirst, halarms]
      refine ⟨⟨?_, h.banned⟩, rfl⟩
      intro src
      by_cases hsrc : src = p.src.text
      · simp [hsrc]
      · simpa [Function.update_of_ne hsrc] using h.hops src
    | some w =>
      rw [hfirst, Option.map_some] at hhops
      cases hm : fits w p.ttl with
      | true =>
        have hdns : handleDns p t = ⟨some true, none, t⟩ := by
          simp only [handleDns, hhops, show hopsMatch w p.ttl = true from hm, if_true]
        have halarms : m.alarms fits [(p.src.text, p.ttl)] = [] := by simp [alarms_singleton, Seen.odd, hfirst, hm]
        rw [hdns, observe_fits hfirst hm, halarms]
        exact ⟨h, rfl⟩
      | false =>
        rw [handleDns_fails ⟨hj, w, hhops, hm⟩, hbanned, observe_odd hfirst hm]
        cases hal : m.alarmed p.src.text with
        | true =>
          have hsame : Function.update m.alarmed p.src.text true = m.alarmed := by rw [← hal, Function.update_eq_self]
          have halarms : m.alarms fits [(p.src.text, p.ttl)] = [] := by simp [alarms_singleton, hal]
          rw [hsame, halarms]
          exact ⟨h, rfl⟩
        | false =>
          have halarms : m.alarms fits [(p.src.text, p.ttl)] = [p.src.text] := by
            simp [alarms_singleton, Seen.odd, hfirst, hm, hal]
          rw [halarms]
          exact ⟨⟨h.hops, by rw [← h.banned]; rfl⟩, rfl⟩
  · obtain ⟨v, hv⟩ := handlePacket_of_not_judged hj t
    rw [hv]
    exact ⟨h, rfl⟩

/-- no packet stops the filter -/
theorem packets_run (t : Tables) (pkts : List Packet) : ∃ t', run packetStep t pkts = some t' := by
  induction pkts generalizing t with
  | nil => exact ⟨t, rfl⟩
  | cons p pkts ih => exact ih _

theorem run_remembers {pkts : List Packet} {t t' : Tables} {m : Seen Text (Fin 256)} (h : Remembers t m)
    (hrun : run packetStep t pkts = some t') : Remembers t' (m.after fits (observed pkts)) ∧
      gather packetStep sentFor t pkts = (m.alarms fits (observed pkts)).map banMessage := by
  induction pkts generalizing t m with
  | nil =>
    simp only [run_nil, Option.some.injEq] at hrun
    exact ⟨hrun ▸ h, rfl⟩
  | cons p pkts ih =>
    rw [run_cons, Option.bind_eq_some_iff] at hrun
    obtain ⟨u, hu, hrun⟩ := hrun
    obtain ⟨hnext, hsent⟩ := packet_remembers h hu
    obtain ⟨hlast, hrest⟩ := ih hnext hrun
    have hsplit : observed (p :: pkts) = observed [p] ++ observed pkts := observed_append [p] pkts
    have hafter : m.after fits (observed (p :: pkts)) = (m.after fits (observed [p])).after fits (observed pkts) := by
      rw [hsplit]
      exact List.foldl_append
    rw [gather_cons packetStep sentFor hu, hsent, hrest, hafter, hsplit, alarms_append, List.map_append]
    exact ⟨hlast, rfl⟩

theorem remembers_empty : Remembers emptyTables unseen := ⟨fun _ => rfl, rfl⟩

/-- from empty dictionaries, what the filter has sent is what the monitor has raised -/
theorem sent_eq (pkts : List Packet) :
    gather packetStep sentFor emptyTables pkts = (unseen.alarms fits (observed pkts)).map banMessage := by
  obtain ⟨t, ht⟩ : ∃ t, run packetStep emptyTables pkts = some t := packets_run emptyTables pkts
  exact (run_remembers remembers_empty ht).2

/-- the verdict on a judged packet -/
theorem verdict_eq {pkts : List Packet} {t : Tables} (hrun : run packetStep emptyTables pkts = some t) {p : Packet}
    (hj : Judged p) : Verdict.accept ∈ (handlePacket p t).1 ↔
      ∃ w, firstOf p.src.text (observed pkts) = some w ∧ fits w p.ttl = true := by
  have hhops := (run_remembers remembers_empty hrun).1.hops p.src.text
  rw [first_after] at hhops
  have hverdict : Verdict.accept ∈ (handlePacket p t).1 ↔ (handleDns p t).result = some true := by
    rw [handlePacket_judged hj]
    split_ifs with hr
    · simp [hr]
    · simp [hr]
  rw [hverdict, handleDns_true_iff, hhops]
  cases firstOf p.src.text (observed pkts) with
  | none => simp
  | some w => simp [fits]

theorem nodup_sent (pkts : List Packet) : (gather packetStep sentFor emptyTables pkts).Nodup := by
  rw [sent_eq]
  exact (nodup_alarms fits (observed pkts)).map banMessage_injective

theorem mem_sent {pkts : List Packet} {src : Text} :
    banMessage src ∈ gather packetStep sentFor emptyTables pkts ↔ Suspect fits (observed pkts) src := by
  rw [sent_eq, List.mem_map_of_injective banMessage_injective, mem_alarms]

/-- **The filter goes by first packets.** In every run from empty dictionaries, over packets of any sources in any order:
a judged packet is accepted exactly when its source has sent one before and its TTL fits the first one's; and a BAN has
been sent for a source exactly when one of its packets did not fit its first, once only. -/
theorem filter_by_first (pkts : List Packet) :
    (∀ pre p, pre ++ [p] <+: pkts → Judged p → ∀ t, run packetStep emptyTables pre = some t →
      (Verdict.accept ∈ (handlePacket p t).1 ↔
        ∃ w, firstOf p.src.text (observed pre) = some w ∧ fits w p.ttl = true)) ∧
    (gather packetStep sentFor emptyTables pkts).Nodup ∧
    ∀ src, banMessage src ∈ gather packetStep sentFor emptyTables pkts ↔ Suspect fits (observed pkts) src :=
  ⟨fun _ _ _ hj _ ht => verdict_eq ht hj, nodup_sent pkts, fun _ => mem_sent⟩

/-! ## The spoofer -/

/-- `in`, its addresses being read already, with bounds between which a TTL can be drawn: where ttl_high + 1 is ttl_low,
`rand() % ( ttl_high - ttl_low + 1 )` divides by zero -/
structure SpooferIn where
  src : IPv4
  dest : IPv4
  ttlHigh : Byte
  ttlLow : Byte
  nPackets : BitVec 32
  drawable : ttlHigh.toNat + 1 ≠ ttlLow.toNat

/-- what a call of send_spoofed_packet finds -/
structure Call where
  net : Sockets
  rands : Rands
  heap : Heap

/-- the packets of the calls that succeed; `i`, an int, is taken to wrap -/
def spawnSpoofer (a : SpooferIn) (calls : ℕ → Call) : List (List Byte) :=
  (List.range a.nPackets.toNat).filterMap fun i =>
    let (sent, result) := sendSpoofedPacket (calls i).net a.src.bits a.dest.bits a.ttlHigh a.ttlLow noData
      (calls i).rands (calls i).heap
    if result = 0 then sent else none

/-- the address with these bits -/
def addrOf (b : BitVec 32) : IPv4 :=
  ⟨(b.extractLsb' 24 8).toFin, (b.extractLsb' 16 8).toFin, (b.extractLsb' 8 8).toFin, (b.extractLsb' 0 8).toFin⟩

/-- the destination port, which TCP and UDP have in one place -/
def destPort : List Byte → Option (Fin 65536)
  | _ :: _ :: q1 :: q0 :: _ => some (q1 ++ q0 : BitVec 16).toFin
  | _ => none

/-- the packet as the filter reads it, `d` routers away -/
def arrived (d : ℕ) (sent : List Byte) : Option Packet := do
  let ip ← parseIpv4 sent
  let dport ← destPort ip.payload
  if d < ip.ttl.toNat then some ⟨ip.protocol.toFin, addrOf ip.src, Fin.ofNat 256 (ip.ttl.toNat - d), dport⟩ else none

theorem addrOf_bits (ip : IPv4) : addrOf ip.bits = ip := by
  apply bits_inj
  apply BitVec.eq_of_toNat_eq
  have hlt := ip.bits.isLt
  rw [toNat_bits]
  simp only [addrOf, BitVec.extractLsb'_toNat, BitVec.val_toFin]
  omega

/-- the TTL that is drawn for a packet -/
def SpooferIn.ttl (a : SpooferIn) (r : Rands) : ℕ := (randomTtl a.ttlHigh a.ttlLow r.ttl).toNat

/-- the forged packet that gets to the filter with this TTL -/
def SpooferIn.forged (a : SpooferIn) (ttl : ℕ) : Packet := ⟨17, a.src, Fin.ofNat 256 ttl, 53⟩

/-- **What arrives** of a packet of send_spoofed_packet. -/
theorem spoofedPacket_arrives (a : SpooferIn) (d : ℕ) (r : Rands) (heap : Heap) :
    arrived d (spoofedPacket a.src.bits a.dest.bits a.ttlHigh a.ttlLow noData r heap) =
      if d < a.ttl r then some (a.forged (a.ttl r - d)) else none := by
  obtain ⟨checksum, hpacket⟩ := spoofedPacket_bytes a.src.bits a.dest.bits a.ttlHigh a.ttlLow noData r heap
  have hport : destPort (tcpSegment a.src.bits a.dest.bits noData r heap) = some 53 := rfl
  simp only [arrived, hpacket, parseIpv4_ipBytes, hport, Option.bind_eq_bind, Option.bind_some, addrOf_bits]
  rfl

/-- what gets to the filter of all of them -/
def spoofed (d : ℕ) (a : SpooferIn) (calls : ℕ → Call) : List Packet := (spawnSpoofer a calls).filterMap (arrived d)

/-- the call sends its packet, which outlives the routers -/
def Arrives (d : ℕ) (a : SpooferIn) (c : Call) : Prop :=
  c.net.socket ≠ -1 ∧ c.net.setsockopt ≠ -1 ∧ c.net.sendto ≠ -1 ∧ d < a.ttl c.rands

theorem mem_spoofed {d : ℕ} {a : SpooferIn} {calls : ℕ → Call} {p : Packet} :
    p ∈ spoofed d a calls ↔
      ∃ i < a.nPackets.toNat, Arrives d a (calls i) ∧ p = a.forged (a.ttl (calls i).rands - d) := by
  simp only [spoofed, spawnSpoofer, List.mem_filterMap, List.mem_range]
  refine ⟨?_, ?_⟩
  · rintro ⟨sent, ⟨i, hi, hsent⟩, hp⟩
    obtain ⟨hresult, hsent⟩ := Option.ite_none_right_eq_some.1 hsent
    have hnet : ¬ ((calls i).net.socket = -1 ∨ (calls i).net.setsockopt = -1) := by
      intro hfail
      rw [sendSpoofedPacket, if_pos hfail] at hresult
      exact absurd hresult (by decide)
    rw [sendSpoofedPacket, if_neg hnet] at hsent hresult
    obtain rfl := Option.some.inj hsent
    obtain ⟨hsocket, hopt⟩ := not_or.1 hnet
    have hsendto : (calls i).net.sendto ≠ -1 := by
      intro hfail
      simp [hfail] at hresult
    rw [spoofedPacket_arrives] at hp
    obtain ⟨hlt, hp⟩ := Option.ite_none_right_eq_some.1 hp
    exact ⟨i, hi, ⟨hsocket, hopt, hsendto, hlt⟩, (Option.some.inj hp).symm⟩
  · rintro ⟨i, hi, ⟨hsocket, hopt, hsendto, hlt⟩, rfl⟩
    have harrives := spoofedPacket_arrives a d (calls i).rands (calls i).heap
    rw [if_pos hlt] at harrives
    refine ⟨_, ⟨i, hi, ?_⟩, harrives⟩
    rw [sendSpoofedPacket, if_neg (not_or.2 ⟨hsocket, hopt⟩), if_neg hsendto]
    rfl

/-! ## Detection -/

/-- a source that has been judged is not the box itself -/
theorem source_of_first {src : Text} {pkts : List Packet} {w : Fin 256} (h : firstOf src (observed pkts) = some w) :
    src ≠ loopback := by
  obtain ⟨p, hp, heq⟩ := List.mem_map.1 (mem_of_firstOf h)
  obtain ⟨rfl, -⟩ := Prod.mk.inj heq
  exact (of_decide_eq_true (List.mem_filter.1 hp).2 : Judged p).2.1

/-- **Spoofing is detected** by TTLs alone. The source's first packet has arrived with TTL `hops`, and no odd one since.
Then, in whatever order the spoofer's packets come among others, as long as all others under the source's address fit:
each is accepted exactly when its TTL fits `hops`; and the source is banned, once, exactly when a TTL that was drawn does
not when it arrives. -/
theorem spoofing_detected {a : SpooferIn} (calls : ℕ → Call) (d : ℕ) {before stream : List Packet} {hops : Fin 256}
    (hfirst : firstOf a.src.text (observed before) = some hops)
    (hclean : ¬ Suspect fits (observed before) a.src.text) (hall : ∀ p ∈ spoofed d a calls, p ∈ stream)
    (hown : ∀ p ∈ stream, Judged p → p.src.text = a.src.text → p ∈ spoofed d a calls ∨ fits hops p.ttl = true) :
    (∀ pre p, pre ++ [p] <+: stream → p ∈ spoofed d a calls → ∀ t, run packetStep emptyTables (before ++ pre) = some t →
      (Verdict.accept ∈ (handlePacket p t).1 ↔ fits hops p.ttl = true)) ∧
    (gather packetStep sentFor emptyTables (before ++ stream)).Nodup ∧
    (banMessage a.src.text ∈ gather packetStep sentFor emptyTables (before ++ stream) ↔
      ∃ i < a.nPackets.toNat, Arrives d a (calls i) ∧
        fits hops (Fin.ofNat 256 (a.ttl (calls i).rands - d)) = false) := by
  have hsrc : a.src.text ≠ loopback := source_of_first hfirst
  have hforged : ∀ p ∈ spoofed d a calls, Judged p ∧ p.src.text = a.src.text := by
    intro p hp
    obtain ⟨i, -, -, rfl⟩ := mem_spoofed.1 hp
    exact ⟨⟨rfl, hsrc, rfl⟩, rfl⟩
  refine ⟨?_, nodup_sent _, ?_⟩
  · intro pre p _ hp t ht
    obtain ⟨hj, hpsrc⟩ := hforged p hp
    rw [verdict_eq ht hj, hpsrc, observed_append, firstOf_append_of_some hfirst]
    simp
  · rw [mem_sent, observed_append, suspect_append hfirst]
    refine ⟨?_, ?_⟩
    · rintro (hs | ⟨v, hv, hodd⟩)
      · exact absurd hs hclean
      · obtain ⟨p, hp, heq⟩ := List.mem_map.1 hv
        obtain ⟨hpsrc, rfl⟩ := Prod.mk.inj heq
        obtain ⟨hp, hj⟩ := List.mem_filter.1 hp
        rcases hown p hp (of_decide_eq_true hj) hpsrc with hspoof | hfit
        · obtain ⟨i, hi, harr, rfl⟩ := mem_spoofed.1 hspoof
          exact ⟨i, hi, harr, hodd⟩
        · rw [hfit] at hodd
          cases hodd
    · rintro ⟨i, hi, harr, hodd⟩
      right
      have hp : a.forged (a.ttl (calls i).rands - d) ∈ spoofed d a calls := mem_spoofed.2 ⟨i, hi, harr, rfl⟩
      refine ⟨_, List.mem_map.2 ⟨_, List.mem_filter.2 ⟨hall _ hp, decide_eq_true (hforged _ hp).1⟩, rfl⟩, hodd⟩

/-- the spoofer of trial 4, with two packets -/
def trialSpoofer : SpooferIn := ⟨⟨10, 4, 11, 17⟩, ⟨10, 4, 11, 193⟩, 64, 20, 2, by decide⟩

/-- TTLs 64 and 20 are drawn -/
def trialCalls (i : ℕ) : Call := ⟨⟨3, 0, 40⟩, ⟨44 - 44 * i, 0, 0⟩, zeroHeap⟩

/-- the true source is as far away as the spoofer, with the higher TTL -/
theorem spoofing_detected_trial :
    banMessage trialSpoofer.src.text ∈
      gather packetStep sentFor emptyTables ([dnsPacket 60] ++ spoofed 4 trialSpoofer trialCalls) := by
  have hclean : ¬ Suspect fits (observed [dnsPacket 60]) trialSpoofer.src.text := by
    have hone : observed [dnsPacket 60] = [] ++ [(clientA, 60)] := by decide
    rw [hone, suspect_concat]
    rintro (hs | ⟨-, w, hw, -⟩)
    · exact suspect_nil _ _ hs
    · cases hw
  have hfirst : firstOf trialSpoofer.src.text (observed [dnsPacket 60]) = some 60 := by decide
  refine (spoofing_detected trialCalls 4 hfirst hclean (fun p hp => hp) ?_).2.2.2 ?_
  · exact fun p hp _ _ => Or.inl hp
  · exact ⟨1, by decide, ⟨by decide, by decide, by decide, by decide⟩, by decide⟩

end NetSec.System
