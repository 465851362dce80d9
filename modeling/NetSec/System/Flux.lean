/-
The clients, the filter and the NAT server together: does a client ever go by a lease that its network does not have?
(client/dnsutils.c, resolve and query_dns; DNS/DNSFilter.py; NAT/NATServer.c)

Any number of hosts, each with a resolver. A call of resolve reads its clock, waits for rwlock and keeps it until it
returns, so that a resolver has one call at a time: `ask` is the moment the call gets the lock, some time after the
reading. If nothing is cached it sends a query. An answer of the DNS server to it goes through the filter, which asks
the NAT server and sends a response (`answer`, any number of times); the call goes on with one of the responses that
have arrived, or with none (`finish`), and those that come after it has returned are lost with its socket. Between any
two of these steps time passes, mappings expire, and other requests are handled, in any order.

The clocks of the hosts are not the server's, and need not be whole seconds apart from it. `Host.ahead` is the most by
which time() at the host is ahead of time() at the server: where the two differ by a constant, this constant rounded up.
A call has read this much at most, or any less (`lag`). An entry counts as unexpired if it is so even when the clock
shows the most that it can: with clocks that are whole seconds apart, just when it is so by the host's clock; else an
entry in its last second does not count, and its address may be another network's already.

A response is bytes: what the host caches is what query_dns reads from them.

`Coherent`: an unexpired entry of a host's cache is of an address that its network holds a running lease of, with its
mapping in the server's list; and no two networks go by one address.

- `resolve_caches`: what a call of resolve adds to the cache;
- `hostInv_finish`: an entry lives no longer than the lease, since the clock is read before the query and the TTL is
  what was left of the lease after it;
- `flux_coherent`: so the caches are coherent in every state of every run.
-/
import NetSec.Filter.AnswerRewrite
import NetSec.Client.PageCheck
import NetSec.NatServer.LeaseExclusive
import NetSec.NatServer.LeaseKey

namespace NetSec.System

open NetSec.Client NetSec.DnsFilter NetSec.Filter NetSec.Grants NetSec.Memory NetSec.NatServer NetSec.Run NetSec.TtlMap

/-! ## Model -/

/-- a call of resolve that holds the lock, and the responses that have come to its socket -/
structure Query where
  host : Hostname
  id : BitVec 16
  timestamp : ℤ
  arrived : List (List Byte)

structure Host where
  ip : IPv4
  /-- the most that its clock is ahead of the server's -/
  ahead : ℤ
  res : DnsResolver
  query : Option Query

structure World where
  srv : Server
  hosts : List Host

inductive WorldOp where
  | server (o : Op)
  | ask (i : ℕ) (host : Hostname) (id : BitVec 16) (lag : ℕ)
  | answer (i : ℕ) (src : IPv4) (dport : Fin 65536) (e : RequestEnv)
  | finish (i : ℕ) (fuel : ℕ) (u : Uninit) (k : Option ℕ)

/-- nothing is cached, and a query is sent -/
def Query.missed (q : Query) (res : DnsResolver) : Bool :=
  (scan q.timestamp q.host.text res.heap.length res.head res).1.isNone

/-- the DNS server's answer to the query -/
def Host.answerTo (c : Host) (q : Query) (src : IPv4) (dport : Fin 65536) : Queued :=
  ⟨17, src, c.ip, 53, dport, q.id, some ⟨q.host, tA, 1⟩⟩

def worldStep (scapy : Scapy) (w : World) : WorldOp → Option World
  | .server o => (step w.srv o).map fun srv => { w with srv := srv }
  | .ask i host id lag => do
    let c ← w.hosts[i]?
    if c.query.isNone then
      some { w with hosts := w.hosts.set i { c with query := some ⟨host, id, w.srv.now + c.ahead - lag, []⟩ } }
    else none
  | .answer i src dport e => do
    let c ← w.hosts[i]?
    let q ← c.query
    if q.missed c.res then
      let (_, srv, reply) ← handlePacket scapy e (c.answerTo q src dport) w.srv
      let q := { q with arrived := q.arrived ++ (reply.map Reply.dns).toList }
      some ⟨srv, w.hosts.set i { c with query := some q }⟩
    else none
  | .finish i fuel u k => do
    let c ← w.hosts[i]?
    let q ← c.query
    let (_, res) ← resolveDatagram fuel u q.id q.timestamp q.host.text (k.bind fun k => q.arrived[k]?) c.res
    some { w with hosts := w.hosts.set i { c with res := res, query := none } }

/-- a host that has resolved nothing yet -/
def newHost (ip : IPv4) (ahead : ℤ) : Host := ⟨ip, ahead, dnsInit, none⟩

/-! ## Coherence -/

/-- the entry is unexpired, even if the host's clock shows the most that it can -/
def Holds (w : World) (c : Host) (e : Entry Text (BitVec 32)) : Prop :=
  e ∈ c.res.entries ∧ e.Live (w.srv.now + c.ahead)

structure Coherent (w : World) : Prop where
  leased : ∀ c ∈ w.hosts, ∀ e, Holds w c e → ∃ m ∈ w.srv.mappingList, m.ispPrefix = network c.ip ∧
    m.publicIP = inetNtoa e.value ∧ w.srv.now ≤ m.time + expirationTimeSeconds
  apart : ∀ c ∈ w.hosts, ∀ c' ∈ w.hosts, ∀ e e', Holds w c e → Holds w c' e' → e.value = e'.value → SameBlock c.ip c'.ip

/-! ## What is cached -/

/-- the text of an `in_addr` is that of its address -/
theorem inetNtoa_inAddr (ip : IPv4) : inetNtoa (inAddr ip) = ip.text := by
  have hpart : ∀ n : Fin 256, (BitVec.ofNat 8 (n : ℕ)).toNat = n := fun n => Nat.mod_eq_of_lt n.isLt
  have hbytes := hostl_append (BitVec.ofNat 8 ip.d) (BitVec.ofNat 8 ip.c) (BitVec.ofNat 8 ip.b) (BitVec.ofNat 8 ip.a)
  simp only [hostl, List.cons.injEq, and_true] at hbytes
  obtain ⟨h0, h1, h2, h3⟩ := hbytes
  simp only [inetNtoa, inAddr, h0, h1, h2, h3, hpart, IPv4.text]

/-- **What a call caches**: nothing, or the address and the TTL of what query_dns has read. -/
theorem resolve_caches {fuel : ℕ} {u : Uninit} {id : BitVec 16} {t : ℤ} {hostname : Text}
    {datagram : Option (List Byte)} {res res' : DnsResolver} {out : Answer (BitVec 32)}
    (h : resolveDatagram fuel u id t hostname datagram res = some (out, res')) :
    res'.entries = res.entries ∨ ∃ r, queryDns fuel u id hostname tA datagram = some (some r) ∧
      res'.entries = res.entries ++ [⟨hostname, r.answer.1, t, r.answer.2.toNat⟩] := by
  have hscan := entries_scan t hostname res.heap.length res.head res
  unfold resolveDatagram resolve at h
  generalize scan t hostname res.heap.length res.head res = scanned at h hscan
  obtain ⟨found, res₁⟩ := scanned
  cases found with
  | some e =>
    simp only [Option.some.injEq, Prod.mk.injEq] at h
    exact Or.inl (by rw [← h.2, hscan])
  | none =>
    simp only [Option.map_eq_some_iff] at h
    obtain ⟨r, hr, h⟩ := h
    cases r with
    | none =>
      simp only [Option.map_none, Prod.mk.injEq] at h
      exact Or.inl (by rw [← h.2, hscan])
    | some r =>
      simp only [Option.map_some, Prod.mk.injEq] at h
      refine Or.inr ⟨r, hr, ?_⟩
      rw [← h.2, entries_insertEntry, hscan]

/-! ## The invariant -/

/-- what the entries of a cache claim, by the server's clock -/
def Host.claims (c : Host) : List (Grant Text Text) :=
  c.res.entries.map fun e => ⟨network c.ip, inetNtoa e.value, e.stamp - c.ahead + e.ttl⟩

/-- a response that has arrived carries a lease that was acknowledged after the clock was read -/
def CarriesLease (s : Server) (c : Host) (q : Query) (bytes : List Byte) : Prop :=
  ∃ rand ttl sent, 0 < ttl ∧ ttl ≤ expirationTimeSeconds ∧ q.timestamp - c.ahead ≤ sent ∧
    Ack.lease (network c.ip) (fluxIp rand).text ttl sent ∈ s.acks ∧ ReadsAs ⟨q.host, tA, 1⟩ bytes (fluxIp rand) ttl

structure HostInv (s : Server) (c : Host) : Prop where
  short : c.ip.text.length ≤ 12
  covered : Covered c.claims (grants s)
  past : ∀ q, c.query = some q → q.timestamp - c.ahead ≤ s.now
  arrived : ∀ q, c.query = some q → ∀ bytes ∈ q.arrived, CarriesLease s c q bytes

structure WorldInv (w : World) : Prop where
  server : GrantInv w.srv
  drawn : Drawn w.srv
  hosts : ∀ c ∈ w.hosts, HostInv w.srv c

theorem HostInv.later {s t : Server} {c : Host} (h : HostInv s c) (hacks : s.acks <+: t.acks) (hnow : s.now ≤ t.now) :
    HostInv t c := by
  have hgrants : grants s ⊆ grants t := List.filterMap_subset _ hacks.subset
  refine ⟨h.short, h.covered.mono hgrants, fun q hq => (h.past q hq).trans hnow, ?_⟩
  intro q hq bytes hbytes
  obtain ⟨rand, ttl, sent, hpos, hmax, hsent, hack, hread⟩ := h.arrived q hq bytes hbytes
  exact ⟨rand, ttl, sent, hpos, hmax, hsent, hacks.subset hack, hread⟩

/-- a step of the server, and then one host changed -/
theorem WorldInv.next {w : World} {s : Server} (h : WorldInv w) (hs : s = w.srv ∨ ∃ o, step w.srv o = some s) :
    WorldInv { w with srv := s } ∧ w.srv.acks <+: s.acks ∧ w.srv.now ≤ s.now := by
  rcases hs with rfl | ⟨o, hstep⟩
  · exact ⟨h, List.prefix_refl _, le_rfl⟩
  · have hacks := acks_step hstep
    have hnow := step_now_le hstep
    exact ⟨⟨grantInv_step _ _ _ h.server hstep, drawn_step _ _ _ h.drawn hstep,
      fun c hc => (h.hosts c hc).later hacks hnow⟩, hacks, hnow⟩

theorem WorldInv.setHost {w : World} (h : WorldInv w) {c : Host} (hc : HostInv w.srv c) (i : ℕ) :
    WorldInv { w with hosts := w.hosts.set i c } := by
  refine ⟨h.server, h.drawn, ?_⟩
  intro x hx
  rcases List.mem_or_eq_of_mem_set hx with hx | rfl
  · exact h.hosts x hx
  · exact hc

/-! ## The steps -/

theorem claims_congr {c c' : Host} (hip : c'.ip = c.ip) (hahead : c'.ahead = c.ahead)
    (hentries : c'.res.entries = c.res.entries) : c'.claims = c.claims := by
  rw [Host.claims, Host.claims, hip, hahead, hentries]

theorem hostInv_ask {s : Server} {c : Host} (h : HostInv s c) (host : Hostname) (id : BitVec 16) (lag : ℕ) :
    HostInv s { c with query := some ⟨host, id, s.now + c.ahead - lag, []⟩ } := by
  refine ⟨h.short, h.covered, ?_, ?_⟩
  · intro q hq
    obtain rfl := Option.some.inj hq
    simp only
    omega
  · intro q hq bytes hbytes
    obtain rfl := Option.some.inj hq
    cases hbytes

/-- **A response carries a lease** that is acknowledged after the call has read its clock. -/
theorem carriesLease_answer {scapy : Scapy} (hscapy : WritesRfc1035 scapy) {s s' : Server} {c : Host} {q : Query}
    {src : IPv4} {dport : Fin 65536} {e : RequestEnv} {v : Verdict} {reply : Option Reply}
    (h12 : c.ip.text.length ≤ 12) (hdrawn : Drawn s) (hpast : q.timestamp - c.ahead ≤ s.now)
    (h : handlePacket scapy e (c.answerTo q src dport) s = some (v, s', reply)) :
    (s' = s ∨ ∃ ip e, step s (.add ip e) = some s') ∧
      ∀ bytes ∈ (reply.map Reply.dns).toList, CarriesLease s' c q bytes := by
  have hplain : Plain (.packet (c.answerTo q src dport) e) := by
    intro _
    refine ⟨h12, ?_⟩
    intro qd hqd
    obtain rfl := Option.some.inj hqd
    rfl
  by_cases ha : IsAnswer (c.answerTo q src dport)
  · rw [DnsFilter.handlePacket, if_pos ⟨ha.1, ha.2.1⟩, if_pos ha.2.2, Option.map_eq_some_iff] at h
    obtain ⟨⟨natreply, t⟩, hx, heq⟩ := h
    simp only [Prod.mk.injEq] at heq
    obtain ⟨-, rfl, rfl⟩ := heq
    obtain ⟨hstep, rand, hpub, hpos, hmax, hacks⟩ := natExchange_some h12 hdrawn hx
    refine ⟨Or.inr ⟨_, _, hstep⟩, ?_⟩
    have hlt : natreply.2 < 2 ^ 32 := lt_of_le_of_lt hmax (by decide)
    have hqd : (c.answerTo q src dport).question = some ⟨q.host, tA, 1⟩ := rfl
    obtain ⟨rd, hreply⟩ := handleDns_eq hscapy hqd rfl (fluxIp rand) hpos.le hlt
    rw [← hpub] at hreply
    rw [hreply]
    intro bytes hbytes
    rw [Option.map_some, Option.toList_some, List.mem_singleton] at hbytes
    subst hbytes
    refine ⟨rand, natreply.2, t.now, hpos, hmax, hpast.trans (step_now_le hstep), ?_, response_decodes rd _ _ _ _⟩
    rw [hacks]
    exact List.mem_append_right _ (List.mem_singleton_self _)
  · obtain ⟨-, hsrv, hreply⟩ := handlePacket_some hscapy hplain hdrawn h
    refine ⟨hsrv.imp id fun hstep => ⟨_, _, hstep⟩, ?_⟩
    simp only [List.filter_singleton, ha, false_and, decide_false, cond_false, List.forall₂_nil_left_iff,
      Option.toList_eq_nil_iff] at hreply
    simp [hreply]

theorem hostInv_answer {s : Server} {c : Host} {q : Query} (h : HostInv s c) (hq : c.query = some q)
    {more : List (List Byte)} (hmore : ∀ bytes ∈ more, CarriesLease s c q bytes) :
    HostInv s { c with query := some { q with arrived := q.arrived ++ more } } := by
  refine ⟨h.short, h.covered, ?_, ?_⟩
  · intro q' hq'
    obtain rfl := Option.some.inj hq'
    exact h.past q hq
  · intro q' hq' bytes hbytes
    obtain rfl := Option.some.inj hq'
    rcases List.mem_append.1 hbytes with hbytes | hbytes
    · exact h.arrived q hq bytes hbytes
    · exact hmore bytes hbytes

/-- **A new entry lives no longer than its lease.** -/
theorem hostInv_finish {s : Server} {c : Host} {q : Query} (h : HostInv s c) (hq : c.query = some q) {fuel : ℕ}
    {u : Uninit} {k : Option ℕ} {res : DnsResolver} {out : Answer (BitVec 32)}
    (hres : resolveDatagram fuel u q.id q.timestamp q.host.text (k.bind fun k => q.arrived[k]?) c.res =
      some (out, res)) : HostInv s { c with res := res, query := none } := by
  refine ⟨h.short, ?_, nofun, nofun⟩
  rcases resolve_caches hres with hsame | ⟨r, hr, hnew⟩
  · have hclaims : Host.claims { c with res := res, query := none } = c.claims := claims_congr rfl rfl hsame
    rw [hclaims]
    exact h.covered
  · obtain ⟨bytes, hbytes⟩ : ∃ bytes, (k.bind fun k => q.arrived[k]?) = some bytes := by
      cases hk : k.bind fun k => q.arrived[k]? with
      | none =>
        rw [hk] at hr
        cases hr
      | some bytes => exact ⟨bytes, rfl⟩
    have hmem : bytes ∈ q.arrived := by
      obtain ⟨n, -, hn⟩ := Option.bind_eq_some_iff.1 hbytes
      exact List.mem_of_getElem? hn
    obtain ⟨rand, ttl, sent, hpos, hmax, hsent, hack, hread⟩ := h.arrived q hq bytes hmem
    -- what was read is what the response says, with as many steps as that took
    have hanswer : r.answer = (inAddr (fluxIp rand), BitVec.ofInt 32 ttl) := by
      obtain ⟨most, rec, hrec, hall⟩ := hread u q.id
      have h1 := queryDns_mono hr (le_max_left fuel most)
      rw [hbytes, hall _ (le_max_right fuel most)] at h1
      rw [← hrec, Option.some.inj (Option.some.inj h1)]
    have hclaims : Host.claims { c with res := res, query := none } =
        c.claims ++ [⟨network c.ip, (fluxIp rand).text, q.timestamp - c.ahead + ttl⟩] := by
      have httl : ((BitVec.ofInt 32 ttl).toNat : ℤ) = ttl := by
        have hlt : ttl < 2 ^ 32 := lt_of_le_of_lt hmax (by decide)
        rw [BitVec.toNat_ofInt]
        omega
      simp only [Host.claims, hnew, List.map_append, List.map_cons, List.map_nil, hanswer, inetNtoa_inAddr, httl]
    rw [hclaims, covered_append]
    refine ⟨h.covered, ?_⟩
    intro g hg
    rw [List.mem_singleton] at hg
    subst hg
    refine ⟨⟨network c.ip, (fluxIp rand).text, sent + ttl⟩, mem_grants.2 ⟨ttl, sent, hack, rfl⟩, rfl, rfl, ?_⟩
    exact Int.add_le_add_right hsent ttl

theorem worldInv_step {scapy : Scapy} (hscapy : WritesRfc1035 scapy) (w : World) (o : WorldOp) (w' : World)
    (h : WorldInv w) (hs : worldStep scapy w o = some w') : WorldInv w' := by
  cases o with
  | server o =>
    simp only [worldStep, Option.map_eq_some_iff] at hs
    obtain ⟨srv, hstep, rfl⟩ := hs
    exact (h.next (Or.inr ⟨o, hstep⟩)).1
  | ask i host id lag =>
    simp only [worldStep, Option.bind_eq_bind, Option.bind_eq_some_iff] at hs
    obtain ⟨c, hc, hs⟩ := hs
    split_ifs at hs
    obtain rfl := Option.some.inj hs
    exact h.setHost (hostInv_ask (h.hosts c (List.mem_of_getElem? hc)) host id lag) i
  | answer i src dport e =>
    simp only [worldStep, Option.bind_eq_bind, Option.bind_eq_some_iff] at hs
    obtain ⟨c, hc, q, hq, hs⟩ := hs
    split_ifs at hs
    obtain ⟨⟨v, srv, reply⟩, hpkt, hs⟩ := Option.bind_eq_some_iff.1 hs
    obtain rfl := Option.some.inj hs
    have hhost := h.hosts c (List.mem_of_getElem? hc)
    obtain ⟨hsrv, hmore⟩ := carriesLease_answer hscapy hhost.short h.drawn (hhost.past q hq) hpkt
    obtain ⟨hnext, hacks, hnow⟩ := h.next (hsrv.imp id fun ⟨ip, e, hstep⟩ => ⟨.add ip e, hstep⟩)
    exact hnext.setHost (hostInv_answer (hhost.later hacks hnow) hq hmore) i
  | finish i fuel u k =>
    simp only [worldStep, Option.bind_eq_bind, Option.bind_eq_some_iff] at hs
    obtain ⟨c, hc, q, hq, ⟨out, res⟩, hres, hs⟩ := hs
    obtain rfl := Option.some.inj hs
    exact h.setHost (hostInv_finish (h.hosts c (List.mem_of_getElem? hc)) hq hres) i

/-- **What happens to the server**: nothing, an ADD of the filter, or a step of its own. -/
theorem srv_step {scapy : Scapy} (hscapy : WritesRfc1035 scapy) {w w' : World} {o : WorldOp} (h : WorldInv w)
    (hs : worldStep scapy w o = some w') :
    w'.srv = w.srv ∨ ∃ o', step w.srv o' = some w'.srv ∧ ((∃ ip e, o' = .add ip e) ∨ o = .server o') := by
  cases o with
  | server o =>
    simp only [worldStep, Option.map_eq_some_iff] at hs
    obtain ⟨srv, hstep, rfl⟩ := hs
    exact Or.inr ⟨o, hstep, Or.inr rfl⟩
  | ask i host id lag =>
    simp only [worldStep, Option.bind_eq_bind, Option.bind_eq_some_iff] at hs
    obtain ⟨c, -, hs⟩ := hs
    split_ifs at hs
    obtain rfl := Option.some.inj hs
    exact Or.inl rfl
  | answer i src dport e =>
    simp only [worldStep, Option.bind_eq_bind, Option.bind_eq_some_iff] at hs
    obtain ⟨c, hc, q, hq, hs⟩ := hs
    split_ifs at hs
    obtain ⟨⟨v, srv, reply⟩, hpkt, hs⟩ := Option.bind_eq_some_iff.1 hs
    obtain rfl := Option.some.inj hs
    have hhost := h.hosts c (List.mem_of_getElem? hc)
    obtain ⟨hsrv, -⟩ := carriesLease_answer hscapy hhost.short h.drawn (hhost.past q hq) hpkt
    exact hsrv.imp id fun ⟨ip, e, hstep⟩ => ⟨.add ip e, hstep, Or.inl ⟨ip, e, rfl⟩⟩
  | finish i fuel u k =>
    simp only [worldStep, Option.bind_eq_bind, Option.bind_eq_some_iff] at hs
    obtain ⟨c, -, q, -, ⟨out, res⟩, -, hs⟩ := hs
    obtain rfl := Option.some.inj hs
    exact Or.inl rfl

/-! ## Runs -/

/-- an unexpired entry is a claim that is live by the server's clock -/
theorem claim_of_holds {w : World} {c : Host} {e : Entry Text (BitVec 32)} (he : Holds w c e) :
    ∃ g ∈ c.claims, g.holder = network c.ip ∧ g.resource = inetNtoa e.value ∧ g.Live w.srv.now := by
  refine ⟨_, List.mem_map_of_mem he.1, rfl, rfl, ?_⟩
  have hlive : w.srv.now + c.ahead ≤ e.stamp + e.ttl := he.2
  unfold Grant.Live
  simp only
  omega

/-- **An unexpired entry is of a running lease.** -/
theorem granted {w : World} (h : WorldInv w) {c : Host} (hc : c ∈ w.hosts) {e : Entry Text (BitVec 32)}
    (he : Holds w c e) :
    ∃ g ∈ grants w.srv, g.holder = network c.ip ∧ g.resource = inetNtoa e.value ∧ g.Live w.srv.now := by
  obtain ⟨g, hg, hholder, hres, hlive⟩ := claim_of_holds he
  obtain ⟨g', hg', hin⟩ := (h.hosts c hc).covered g hg
  exact ⟨g', hg', hin.holder.symm.trans hholder, hin.resource.symm.trans hres, hin.live hlive⟩

theorem coherent_of_inv {w : World} (h : WorldInv w) : Coherent w := by
  refine ⟨?_, ?_⟩
  · intro c hc e he
    obtain ⟨g, hg, hholder, hres, hlive⟩ := granted h hc he
    obtain ⟨m, hm, hisp, hpub, htime⟩ := mapping_of_grant h.server.inv hg hlive
    exact ⟨m, hm, hisp.trans hholder, hpub.trans hres, htime ▸ hlive⟩
  · intro c hc c' hc' e e' he he' hvalue
    obtain ⟨g, hg, hholder, hres, hlive⟩ := claim_of_holds he
    obtain ⟨g', hg', hholder', hres', hlive'⟩ := claim_of_holds he'
    have hcovered : Covered (c.claims ++ c'.claims) (grants w.srv) :=
      covered_append.2 ⟨(h.hosts c hc).covered, (h.hosts c' hc').covered⟩
    have hsame := h.server.exclusive.of_covered hcovered g (List.mem_append_left _ hg) g' (List.mem_append_right _ hg')
      (by rw [hres, hres', hvalue]) hlive hlive'
    rw [← network_eq_iff, ← hholder, ← hholder', hsame]

theorem worldInv_start {s : Server} (h : Start s) (hn : NoMappingRule s.fw) {hosts : List Host}
    (hnew : ∀ c ∈ hosts, c.res = dnsInit ∧ c.query = none ∧ c.ip.text.length ≤ 12) : WorldInv ⟨s, hosts⟩ := by
  refine ⟨grantInv_start h hn, by simp [Drawn, h.mappings], ?_⟩
  intro c hc
  obtain ⟨hres, hquery, h12⟩ := hnew c hc
  have hclaims : c.claims = [] := by
    rw [Host.claims, hres]
    rfl
  exact ⟨h12, hclaims ▸ covered_nil _, by simp [hquery], by simp [hquery]⟩

/-- two hosts of two networks -/
def twoHosts : List Host := [newHost ⟨10, 4, 11, 17⟩ 0, newHost ⟨10, 4, 12, 17⟩ 3]

theorem twoHosts_new : ∀ c ∈ twoHosts, c.res = dnsInit ∧ c.query = none ∧ c.ip.text.length ≤ 12 := by
  intro c hc
  simp only [twoHosts, List.mem_cons, List.not_mem_nil, or_false] at hc
  rcases hc with rfl | rfl
  · exact ⟨rfl, rfl, by decide⟩
  · exact ⟨rfl, rfl, by decide⟩

/-- the first asks, and is answered -/
def firstAnswered : List WorldOp :=
  [.ask 0 www 7 0, .answer 0 ⟨10, 4, 11, 193⟩ 40000 drawsFirst, .finish 0 100 zeros (some 0)]

/-- and so is the second, by another draw -/
def bothAnswered : List WorldOp :=
  firstAnswered ++ [.ask 1 www 8 1, .answer 1 ⟨10, 4, 11, 193⟩ 40001 ⟨quiet, ⟨[], 0, 0, [⟨0, 1⟩], 0⟩, 0⟩,
    .finish 1 100 zeros (some 0)]

end NetSec.System
