/-
The addresses of the pool: what does a packet or a scan find behind them? (NAT/SetupAlias.py; NAT/NATServer.c;
client/port_scanner.c)

The box has every address of the pool as its own (`aliases`), so that a packet to one that has no rule for its sender is
for the box itself, where INPUT is closed.

A thread of spawn_pscan returns 0 when it has verified the page, and the page is the server's: its connection has come
to the server then (`Verified`).

- `mem_aliases_iff`: the box's addresses are those that the server draws from;
- `pool_closed`: in every run since main's set-up, what gets through to an address of the pool goes to the server, by a
  mapping of its sender's /26, except what the access rules are for;
- `scan_finds_leases`: so a port scan of the pool finds addresses that have been leased to the scanner's own /26, and no
  others;
- `scan_finds_nothing`: and none at all while nobody in that /26 has asked for one, whatever the others do (trial3.c).
-/
import NetSec.Client.PortScan
import NetSec.System.Flux
import NetSec.System.Gateway

namespace NetSec.System

open NetSec.Client NetSec.DnsFilter NetSec.Filter NetSec.Memory NetSec.NatServer NetSec.RuleTable NetSec.Run
  NetSec.Tracking

/-! ## The box's addresses -/

/-- SetupAlias.py: `range(195, 255)` -/
def aliases : List IPv4 := (List.range' 195 60).map fun i => ⟨10, 4, 11, Fin.ofNat 256 i⟩

/-- **The box has the addresses that are drawn.** -/
theorem mem_aliases_iff {a : IPv4} : a ∈ aliases ↔ ∃ rand, a = fluxIp rand := by
  simp only [aliases, List.mem_map, List.mem_range'_1, fluxIp, publicIpRangeEnd, publicIpRangeStart]
  refine ⟨?_, ?_⟩
  · rintro ⟨i, ⟨hlow, hhigh⟩, rfl⟩
    refine ⟨i - 195, ?_⟩
    rw [Nat.mod_eq_of_lt (by omega), Nat.sub_add_cancel hlow]
  · rintro ⟨rand, rfl⟩
    exact ⟨rand % (254 - 195 + 1) + 195, by omega, rfl⟩

theorem serverAddr_not_alias : serverAddr ∉ aliases := by decide

/-! ## Packets to the pool -/

section Pool

variable {nf : Netfilter} {now : ℤ} {fw : Firewall} {y : Tracked nf.toTracker Server} {ops : List (TrackOp Op Flow)}
  {p : Flow} {t : Translated}

theorem inv_startServer (h : NoMappingRule fw) : Inv (startServer now fw) := by
  refine inv_start ⟨rfl, rfl, rfl⟩ ?_
  intro isp pub
  rw [(rules_startServer now fw).2]
  exact h isp pub

/-- what the box's own addresses accept -/
theorem pass_local (hinput : nf.input fw { p with dst := t.dst } = .accept ↔ p.Access)
    (hlocal : nf.isLocal t.dst = true) : nf.pass fw p t = true ↔ p.Access := by
  simp only [Chains.pass, hlocal, if_true, decide_eq_true_eq]
  exact hinput

end Pool

/-- a box whose addresses are those of the pool -/
def poolBox : Netfilter := tableBox fun ip => ip ∈ aliases

theorem inAddr_injective : Function.Injective inAddr := by
  intro a b h
  apply text_injective
  rw [← inetNtoa_inAddr, ← inetNtoa_inAddr, h]

theorem acks_reaches {s t : Server} (h : Reaches step s t) : s.acks <+: t.acks := by
  obtain ⟨ops, hrun⟩ := h
  have hkeep : ∀ u o v, s.acks <+: u.acks → step u o = some v → s.acks <+: v.acks := fun u o v hu hs =>
    hu.trans (acks_step hs)
  exact run_inv step hkeep (List.prefix_refl _) hrun

section Scan

variable {nf : Netfilter} {s : Server} {y : Tracked nf.toTracker Server} {ops : List (TrackOp Op Flow)}

variable (nf) in
/-- at some moment of the run, a packet of the thread's connection has come to the server -/
def Verified (s : Server) (ops : List (TrackOp Op Flow)) (x : ScanAddrIn) : Prop :=
  ∃ pre z p t, pre <+: ops ∧ run (gatewayStep nf) (untracked nf.toTracker s) pre = some z ∧
    goes nf z p = some t ∧ t.dst = serverAddr ∧ inAddr p.src = x.srcip ∧ inAddr p.dst = x.toScan

/-- a connection of the scanner that has come to the server -/
theorem verified_leased (laws : nf.Documented) (hinv : Inv s) (hown : Own s.fw) (hbox : nf.isLocal serverAddr = false)
    (h : run (gatewayStep nf) (untracked nf.toTracker s) ops = some y) {x : ScanAddrIn} {scanner : IPv4}
    (hsrc : x.srcip = inAddr scanner) (hv : Verified nf s ops x) :
    x.toScan = inAddr serverAddr ∨
      ∃ ttl sent, Ack.lease (network scanner) (inetNtoa x.toScan) ttl sent ∈ y.ctx.acks := by
  obtain ⟨pre, z, p, t, hpre, hz, hgoes, hdst, hpsrc, hpdst⟩ := hv
  obtain rfl : p.src = scanner := inAddr_injective (hpsrc.trans hsrc)
  rw [← hpdst, inetNtoa_inAddr]
  obtain ⟨-, hto | ⟨pre', z', hpre', hz', -, m, hm, hisp, hpub, -, hack⟩⟩ :=
    opened_through_mapping laws hinv hown hbox hz hgoes hdst
  · exact Or.inl (congrArg inAddr hto)
  · right
    obtain ⟨rest, rfl⟩ := hpre'.trans hpre
    rw [run_append, hz', Option.bind_some] at h
    rw [hisp, hpub] at hack
    exact ⟨_, _, (acks_reaches (context_reaches h)).subset hack⟩

/-- spawn_pscan returns, and what it finds a thread of its own has found -/
theorem scan_returns {arg : PscanIn} (hfew : arg.spanned < 2 ^ 31) (htop : ¬ arg.Spans 0xffffffff)
    (values : ℕ → ScanAddrIn → ℤ) (v : Pscan) {fuel : ℕ} (hfuel : arg.spanned < fuel) :
    ∃ out scanned, spawnPscan fuel arg (fun n a => some (values n a)) v = some (out, scanned) ∧
      out.nFound.toNat = out.found.length ∧
      ∀ f ∈ out.found, arg.Spans (swapl f) ∧ ∃ n x, values n x = 0 ∧ x.srcip = arg.srcip ∧ x.toScan = f := by
  rw [arg.spanned_eq] at hfew hfuel
  obtain ⟨v', hscan, hjoined⟩ :=
    spawnPscan_joined hfew (PscanIn.high_lt htop) hfuel (fun n a => some (values n a)) (by simp) v
  have hreports := hjoined.reportsOpen hfew
  refine ⟨_, _, hscan, hreports.nFound, ?_⟩
  intro f hf
  obtain ⟨n, x, hx, hscanned, hzero⟩ := (hreports.mem_found (swapl f)).1 (by rwa [swapl_swapl])
  rw [swapl_swapl] at hscanned
  have hspans : arg.Spans (swapl f) := by
    have hcount := hreports.once (swapl f)
    rw [swapl_swapl] at hcount
    by_contra hout
    rw [if_neg hout, List.count_eq_zero] at hcount
    exact hcount (List.mem_map.2 ⟨x, List.mem_of_getElem? hx, hscanned⟩)
  have hxsrc : x.srcip = arg.srcip := by
    rw [List.getElem?_map, Option.map_eq_some_iff] at hx
    obtain ⟨k, hk, rfl⟩ := hx
    have hlt : k ∈ List.range arg.total := hjoined.started ▸ List.mem_of_getElem? hk
    rw [hjoined.addrs k (List.mem_range.1 hlt)]
    rfl
  exact ⟨hspans, n, x, hzero, hxsrc, hscanned⟩

/-- **A scan finds leases.** In every run, with threads that return 0 only when a packet of their connection has come to
the server: spawn_pscan returns, and what it finds is the server's own address or has been leased to the scanner's
/26. -/
theorem scan_finds_leases (laws : nf.Documented) {arg : PscanIn} (hfew : arg.spanned < 2 ^ 31)
    (htop : ¬ arg.Spans 0xffffffff) {scanner : IPv4} (hsrc : arg.srcip = inAddr scanner) (values : ℕ → ScanAddrIn → ℤ) (v : Pscan) {fuel : ℕ}
    (hfuel : arg.spanned < fuel) (hinv : Inv s) (hown : Own s.fw) (hbox : nf.isLocal serverAddr = false)
    (h : run (gatewayStep nf) (untracked nf.toTracker s) ops = some y)
    (hverified : ∀ n x, values n x = 0 → Verified nf s ops x) :
    ∃ out scanned, spawnPscan fuel arg (fun n a => some (values n a)) v = some (out, scanned) ∧
      ∀ f ∈ out.found, f = inAddr serverAddr ∨
        ∃ ttl sent, Ack.lease (network scanner) (inetNtoa f) ttl sent ∈ y.ctx.acks := by
  obtain ⟨out, scanned, hscan, -, hfound⟩ := scan_returns hfew htop values v hfuel
  refine ⟨out, scanned, hscan, ?_⟩
  intro f hf
  obtain ⟨-, n, x, hzero, hxsrc, rfl⟩ := hfound f hf
  exact verified_leased laws hinv hown hbox h (hxsrc.trans hsrc) (hverified n x hzero)

/-- 10.4.11.17 scans two addresses of the pool -/
def poolScan : PscanIn := ⟨inAddr ⟨10, 4, 11, 195⟩, inAddr ⟨10, 4, 11, 196⟩, inAddr pageRequest.src⟩

/-- threads that find the page on this connection, and no other -/
def findsPage (p : Flow) (_ : ℕ) (x : ScanAddrIn) : ℤ :=
  if x.toScan = inAddr p.dst ∧ x.srcip = inAddr p.src then 0 else 1

theorem findsPage_verified {p : Flow} {t : Translated}
    (h : run (gatewayStep nf) (untracked nf.toTracker s) ops = some y) (ht : goes nf y p = some t)
    (hdst : t.dst = serverAddr) (n : ℕ) (x : ScanAddrIn) (hzero : findsPage p n x = 0) : Verified nf s ops x := by
  have hx : x.toScan = inAddr p.dst ∧ x.srcip = inAddr p.src := by
    by_contra hne
    rw [findsPage, if_neg hne] at hzero
    exact absurd hzero (by decide)
  exact ⟨ops, y, p, t, List.prefix_refl _, h, ht, hdst, hx.2.symm, hx.1.symm⟩

theorem scan_finds_leases_first : ∃ y, run (gatewayStep routed) (untracked routed.toTracker bootServer)
    [.context (addFirst clientA), .packet pageRequest] = some y ∧
    ∃ out scanned, spawnPscan 3 poolScan (fun n x => some (findsPage pageRequest n x)) noThreads =
        some (out, scanned) ∧
      ∀ f ∈ out.found, f = inAddr serverAddr ∨
        ∃ ttl sent, Ack.lease (network pageRequest.src) (inetNtoa f) ttl sent ∈ y.ctx.acks := by
  have h : run (gatewayStep routed) (untracked routed.toTracker bootServer)
      [.context (addFirst clientA), .packet pageRequest] = some _ := rfl
  have hverified := findsPage_verified (p := pageRequest) (t := ⟨clientA, serverAddr⟩) h rfl rfl
  exact ⟨_, h, scan_finds_leases routed_documented (by decide) (by decide) rfl (findsPage pageRequest) noThreads
    (by decide) inv_boot own_boot rfl h hverified⟩

/-- nobody of the /26 asks for an address -/
def AsksElsewhere (isp : Text) (_ : Server) (o : Op) : Prop := ∀ ip e, o = .add ip e → ispPrefix e.uninit ip ≠ isp

/-- a /26 that does not ask has no lease -/
theorem no_lease_step {isp : Text} {s t : Server} {o : Op} (h : ∀ pub ttl sent, Ack.lease isp pub ttl sent ∉ s.acks)
    (helse : AsksElsewhere isp s o) (hs : step s o = some t) : ∀ pub ttl sent, Ack.lease isp pub ttl sent ∉ t.acks := by
  intro pub ttl sent hack
  have hkeep : t.acks = s.acks → False := fun hsame => h pub ttl sent (hsame ▸ hack)
  cases o with
  | wait d =>
    obtain rfl := Option.some.inj hs
    exact hkeep rfl
  | add ip e =>
    have hnew {pub' : Text} {ttl' sent' : ℤ}
        (hacks : t.acks = s.acks ++ [.lease (ispPrefix e.uninit ip) pub' ttl' sent']) : False := by
      rw [hacks, List.mem_append, List.mem_singleton, Ack.lease.injEq] at hack
      exact helse ip e rfl (hack.resolve_left (h pub ttl sent)).1.symm
    rcases step_add hs with ⟨m, -, -, ht⟩ | ⟨pub', now, now', -, -, rfl⟩
    · exact hnew (congrArg Server.acks ht)
    · exact hnew rfl
  | ban ip w =>
    obtain rfl := Option.some.inj hs
    simp [banRequest, h] at hack
  | expireMapping =>
    obtain ⟨m, rest, -, -, ht⟩ := step_expireMapping hs
    exact hkeep (by rw [ht])
  | expireBan =>
    obtain ⟨b, rest, -, -, ht⟩ := step_expireBan hs
    exact hkeep (by rw [ht])

/-- **A scanner that nobody has asked for finds nothing.** In every run in which no request is for the scanner's /26,
from a state without leases for it: spawn_pscan returns and reports no address, whatever is leased to others, unless it
scans the server's own. -/
theorem scan_finds_nothing (laws : nf.Documented) {arg : PscanIn} (hfew : arg.spanned < 2 ^ 31)
    (htop : ¬ arg.Spans 0xffffffff) (hserver : ¬ arg.Spans (swapl (inAddr serverAddr))) {scanner : IPv4} (hsrc : arg.srcip = inAddr scanner)
    (values : ℕ → ScanAddrIn → ℤ) (v : Pscan) {fuel : ℕ} (hfuel : arg.spanned < fuel) (hinv : Inv s) (hown : Own s.fw)
    (hbox : nf.isLocal serverAddr = false) (hnone : ∀ pub ttl sent, Ack.lease (network scanner) pub ttl sent ∉ s.acks)
    (helse : ∀ ip e, TrackOp.context (.add ip e) ∈ ops → ispPrefix e.uninit ip ≠ network scanner)
    (h : run (gatewayStep nf) (untracked nf.toTracker s) ops = some y)
    (hverified : ∀ n x, values n x = 0 → Verified nf s ops x) :
    ∃ out scanned, spawnPscan fuel arg (fun n a => some (values n a)) v = some (out, scanned) ∧ out.found = [] ∧
      out.nFound = 0 := by
  obtain ⟨out, scanned, hscan, hcount, hfound⟩ := scan_returns hfew htop values v hfuel
  have hempty : out.found = [] := by
    refine List.eq_nil_iff_forall_not_mem.2 ?_
    intro f hf
    obtain ⟨hspans, n, x, hzero, hxsrc, rfl⟩ := hfound f hf
    have hacks : ∀ pub ttl sent, Ack.lease (network scanner) pub ttl sent ∉ y.ctx.acks := by
      refine context_inv (C := AsksElsewhere (network scanner)) (fun _ _ _ => no_lease_step) hnone ?_ h
      rintro pre o hpre _ _ _ _ i rfl ip e rfl
      exact helse ip e (hpre.subset (by simp))
    rcases verified_leased laws hinv hown hbox h (hxsrc.trans hsrc) (hverified n x hzero) with hself | ⟨ttl, sent, hack⟩
    · exact hserver (hself ▸ hspans)
    · exact hacks _ _ _ hack
  refine ⟨out, scanned, hscan, hempty, ?_⟩
  rw [hempty] at hcount
  exact BitVec.eq_of_toNat_eq hcount

/-- trial3.c: 10.4.11.13 scans the pool; the resolvers are those of two other networks -/
def trialScan : PscanIn := ⟨inAddr ⟨10, 4, 11, 195⟩, inAddr ⟨10, 4, 11, 254⟩, inAddr ⟨10, 4, 11, 13⟩⟩

/-- a host of the second network, on a connection of its own -/
def otherRequest : Flow := ⟨false, 6, ⟨10, 4, 11, 66⟩, ⟨10, 4, 11, 195⟩, 40000, 80⟩

/-- the page is found, but by another network's thread -/
theorem scan_finds_nothing_trial : ∃ y, run (gatewayStep routed) (untracked routed.toTracker bootServer)
    [.context (addFirst "10.4.11.65".toList), .packet otherRequest] = some y ∧ goes routed y otherRequest ≠ none ∧
    ∃ out scanned, spawnPscan 61 trialScan (fun n x => some (findsPage otherRequest n x)) noThreads =
        some (out, scanned) ∧ out.found = [] ∧ out.nFound = 0 := by
  have h : run (gatewayStep routed) (untracked routed.toTracker bootServer)
      [.context (addFirst "10.4.11.65".toList), .packet otherRequest] = some _ := rfl
  have hverified := findsPage_verified (p := otherRequest) (t := ⟨"10.4.11.66".toList, serverAddr⟩) h rfl rfl
  have hsrc : trialScan.srcip = inAddr ⟨10, 4, 11, 13⟩ := rfl
  refine ⟨_, h, by decide, ?_⟩
  refine scan_finds_nothing routed_documented (by decide) (by decide) (by decide) hsrc (findsPage otherRequest)
    noThreads (by decide) inv_boot own_boot rfl (fun _ _ _ => List.not_mem_nil) ?_ h hverified
  intro ip e hask
  simp only [addFirst, List.mem_cons, TrackOp.context.injEq, Op.add.injEq, reduceCtorEq, List.not_mem_nil,
    or_false] at hask
  obtain ⟨rfl, rfl⟩ := hask
  decide

end Scan

end NetSec.System
