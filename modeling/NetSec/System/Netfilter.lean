/-
The box between the networks: netfilter with the rules that the server writes (NAT/NATServer.c, lines 184-365 and
506-606).

netfilter is not the server's, so it is a parameter: what it does with a packet and what it remembers are its own, and
`Netfilter.Documented` is what its documentation (iptables(8), iptables-extensions(8)) says of it, as far as the server
relies on it:
- an address as an argument of -s or -d covers itself, and `a.b.c.d/26` the addresses of its /26; what other arguments
  cover, is left open (a ban may name a network, which then must not be named in two ways: to iptables two names of one
  network are one rule, here they are two);
- a chain takes the first rule whose options all match, else its policy, which nothing sets for FORWARD (ACCEPT);
- the first packet of a connection goes through PREROUTING of the nat table, where its destination may be translated,
  then through INPUT of the filter table if it is now for the box itself (`isLocal`), else through FORWARD, and through
  POSTROUTING of the nat table, where its source may be;
- later packets are translated as the first one was, and go through INPUT or FORWARD only.

The nat table is asked for first packets, whose state is NEW. So the ESTABLISHED rules that an expired mapping leaves
never decide: an open connection is kept by its entry, not by them.

- `prerouting_eq`, `forward_accept_iff`, `postrouting_cases`: what the chains do where all rules are the server's;
- `enter_iff`: a first packet comes to the server behind the box exactly when no DROP rule covers its source, and it is
  for the server's own address or a DNAT rule of its /26 and its destination is there;
- `tableBox_documented`: a box that keeps its connections in a table is one.
-/
import NetSec.Core.Tracking
import NetSec.Filter.HopCount
import NetSec.Filter.WireFormat
import NetSec.NatServer.Shutdown

namespace NetSec.System

open NetSec.Filter NetSec.NatServer NetSec.RuleTable NetSec.Run NetSec.Tracking

/-! ## Packets and chains -/

inductive Chain where
  | input
  | forward
  | prerouting
  | postrouting
deriving DecidableEq, Repr

inductive Target where
  | accept
  | drop
  | dnat (addr : IPv4)
  | snat (addr : Text)
deriving DecidableEq, Repr

/-- a connection, by the addresses of its first packet; `lo`: it comes in by the loopback interface -/
structure Flow where
  lo : Bool
  proto : Fin 256
  src : IPv4
  dst : IPv4
  sport : Fin 65536
  dport : Fin 65536
deriving DecidableEq, Repr

/-- its addresses behind the box -/
structure Translated where
  src : Text
  dst : IPv4
deriving DecidableEq, Repr

/-- the addresses whose texts are SERVERIP and DNSIP -/
def serverAddr : IPv4 := ⟨192, 168, 1, 101⟩
def dnsAddr : IPv4 := ⟨10, 4, 11, 193⟩

theorem text_serverAddr : serverAddr.text = serverIp := by decide

theorem text_dnsAddr : dnsAddr.text = dnsIp := by decide

/-! ## Netfilter -/

/-- the rules and the chains, on a box with these addresses -/
structure Chains where
  isLocal : IPv4 → Bool
  /-- an argument of -s or -d matches the address -/
  covers : Text → IPv4 → Bool
  /-- the target of a rule if it matches the packet in the chain -/
  target : Chain → Flow → Rule → Option Target
  prerouting : Firewall → Flow → IPv4
  input : Firewall → Flow → Policy
  forward : Firewall → Flow → Policy
  postrouting : Firewall → Flow → Text

namespace Chains

variable (nf : Chains)

/-- the filter table's verdict on a packet of the flow, its destination being translated already -/
def pass (fw : Firewall) (p : Flow) (t : Translated) : Bool :=
  let p := { p with dst := t.dst }
  if nf.isLocal t.dst then nf.input fw p = .accept else nf.forward fw p = .accept

/-- the way of a first packet -/
def enter (fw : Firewall) (p : Flow) : Option Translated :=
  let dst := nf.prerouting fw p
  let t : Translated := ⟨if nf.isLocal dst then p.src.text else nf.postrouting fw { p with dst := dst }, dst⟩
  if nf.pass fw p t then some t else none

/-- a DROP rule covers the address -/
def Dropped (fw : Firewall) (a : IPv4) : Prop := ∃ ip, Rule.drop ip ∈ fw.filter ∧ nf.covers ip a = true

/-- the rule is a DROP rule that covers the address -/
def drops (a : IPv4) : Rule → Bool
  | .drop ip => nf.covers ip a
  | _ => false

theorem dropped_iff (fw : Firewall) (a : IPv4) : fw.filter.any (nf.drops a) = true ↔ nf.Dropped fw a := by
  rw [List.any_eq_true]
  refine ⟨?_, ?_⟩
  · rintro ⟨r, hr, hdrops⟩
    cases r with
    | drop ip => exact ⟨ip, hr, hdrops⟩
    | _ => simp [drops] at hdrops
  · rintro ⟨ip, hr, hcovers⟩
    exact ⟨.drop ip, hr, hcovers⟩

instance (fw : Firewall) (a : IPv4) : Decidable (nf.Dropped fw a) := decidable_of_iff _ (nf.dropped_iff fw a)

end Chains

/-- netfilter, with the tables as its configuration -/
structure Netfilter extends Chains, Tracker Firewall Flow Translated

/-- what a rule of the server says -/
def ruleTarget (covers : Text → IPv4 → Bool) (chain : Chain) (p : Flow) : Rule → Option Target
  | .inputLo => if chain = .input ∧ p.lo then some .accept else none
  | .inputSsh => if chain = .input ∧ p.proto = 6 ∧ p.dport = 22 then some .accept else none
  | .inputFrom ip => if chain = .input ∧ covers ip p.src then some .accept else none
  | .drop ip => if chain = .forward ∧ covers ip p.src then some .drop else none
  | .dnat isp pub =>
    if chain = .prerouting ∧ covers isp p.src ∧ covers pub p.dst then some (.dnat serverAddr) else none
  | .snat isp pub =>
    if chain = .postrouting ∧ covers serverIp p.src ∧ covers isp p.dst then some (.snat pub) else none
  | .dnatEstablished _ _ | .snatEstablished _ _ | .other _ => none

/-- netfilter as it is documented -/
structure Netfilter.Documented (nf : Netfilter) : Prop where
  address : ∀ a b : IPv4, nf.covers a.text b = true ↔ b = a
  network : ∀ a b : IPv4, nf.covers (network a) b = true ↔ SameBlock a b
  rules : ∀ chain p r, (∀ spec, r ≠ .other spec) → nf.target chain p r = ruleTarget nf.covers chain p r
  prerouting : ∀ fw p, nf.prerouting fw p =
    match fw.nat.findSome? (nf.target .prerouting p) with
    | some (.dnat addr) => addr
    | _ => p.dst
  input : ∀ fw p, nf.input fw p =
    match fw.filter.findSome? (nf.target .input p) with
    | some .accept => .accept
    | some .drop => .drop
    | _ => fw.inputPolicy
  forward : ∀ fw p, nf.forward fw p =
    match fw.filter.findSome? (nf.target .forward p) with
    | some .drop => .drop
    | _ => .accept
  postrouting : ∀ fw p, nf.postrouting fw p =
    match fw.nat.findSome? (nf.target .postrouting p) with
    | some (.snat addr) => addr
    | _ => p.src.text
  tracks : nf.toTracker.Laws nf.enter nf.pass

/-! ## The server's rules -/

/-- a rule as the server writes it into the nat table: one that can match a first packet is of a network and an
address -/
def Written : Rule → Prop
  | .dnat isp pub | .snat isp pub => ∃ a b : IPv4, isp = network a ∧ pub = b.text
  | .dnatEstablished _ _ | .snatEstablished _ _ => True
  | _ => False

/-- the tables hold no rules but the server's -/
structure Own (fw : Firewall) : Prop where
  nat : ∀ r ∈ fw.nat, Written r
  filter : ∀ spec, Rule.other spec ∉ fw.filter

theorem Written.ne_other {r : Rule} (h : Written r) (spec : Text) : r ≠ .other spec := by
  rintro rfl
  exact h

theorem Own.filter_ne {fw : Firewall} (h : Own fw) {r : Rule} (hr : r ∈ fw.filter) (spec : Text) : r ≠ .other spec := by
  rintro rfl
  exact h.filter spec hr

theorem own_startServer (now : ℤ) {fw : Firewall} (h : Own fw) : Own (startServer now fw).fw := by
  obtain ⟨hfilter, hnat⟩ := rules_startServer now fw
  refine ⟨fun r hr => h.nat r (by rwa [hnat] at hr), ?_⟩
  intro spec hr
  rw [hfilter] at hr
  rcases mem_replay hr with hr | hr
  · exact h.filter spec hr
  · simp [accessRules] at hr

theorem own_emptyTables : Own emptyTables :=
  ⟨fun _ hr => absurd hr List.not_mem_nil, fun _ => List.not_mem_nil⟩

/-- a step writes nothing else -/
theorem own_step (s : Server) (o : Op) (t : Server) (h : Own s.fw) (hs : step s o = some t) : Own t.fw := by
  cases o with
  | wait d =>
    obtain rfl := Option.some.inj hs
    exact h
  | add ip e =>
    rcases step_add hs with ⟨m, -, -, ht⟩ | ⟨pub, now, now', -, hdraw, rfl⟩
    · rw [ht]
      exact h
    · obtain ⟨rand, rfl⟩ := (drawAddress_some hdraw).2.1
      obtain ⟨a, ha⟩ := ispPrefix_network e.uninit ip
      have hnew : ∃ a b : IPv4, ispPrefix e.uninit ip = network a ∧ fluxAddress rand = b.text :=
        ⟨a, fluxIp rand, ha, (fluxIp_text rand).symm⟩
      refine ⟨?_, ?_⟩
      · intro r hr
        simp only [install, nat_checkAddRule_append, mem_addAbsent] at hr
        rcases hr with (hr | rfl) | rfl
        · exact h.nat r hr
        · exact hnew
        · exact hnew
      · simpa [install] using h.filter
  | ban ip w =>
    obtain rfl := Option.some.inj hs
    refine ⟨by simpa [banRequest] using h.nat, ?_⟩
    intro spec hr
    simp only [banRequest, filter_checkAddRule_append, mem_addAbsent, reduceCtorEq, or_false] at hr
    exact h.filter spec hr
  | expireMapping =>
    obtain ⟨m, rest, -, -, rfl⟩ := step_expireMapping hs
    refine ⟨?_, by simpa [handleExpiredMap] using h.filter⟩
    intro r hr
    simp only [nat_handleExpiredMap] at hr
    have hr := deleteFirst_subset _ _ (deleteFirst_subset _ _ hr)
    simp only [mem_addAbsent] at hr
    rcases hr with (hr | rfl) | rfl
    · exact h.nat r hr
    · trivial
    · trivial
  | expireBan =>
    obtain ⟨b, rest, -, -, rfl⟩ := step_expireBan hs
    refine ⟨by simpa [handleExpiredBan] using h.nat, ?_⟩
    intro spec hr
    simp only [handleExpiredBan, filter_checkAddRule_delete] at hr
    exact h.filter spec (deleteFirst_subset _ _ hr)

/-! ## What the chains do -/

section Chains

variable {nf : Netfilter} (laws : nf.Documented) {fw : Firewall} {p : Flow}

include laws

theorem target_prerouting {r : Rule} (hr : Written r) {t : Target} :
    nf.target .prerouting p r = some t ↔ t = .dnat serverAddr ∧ r = .dnat (network p.src) p.dst.text := by
  rw [laws.rules _ _ _ hr.ne_other]
  cases r with
  | dnat isp pub =>
    obtain ⟨a, b, rfl, rfl⟩ := hr
    have hblock : nf.covers (network a) p.src = true ↔ network a = network p.src :=
      (laws.network a p.src).trans (network_eq_iff a p.src).symm
    have haddr : nf.covers b.text p.dst = true ↔ b.text = p.dst.text :=
      (laws.address b p.dst).trans ⟨fun h => h ▸ rfl, fun h => text_injective h.symm⟩
    simp only [ruleTarget, true_and, hblock, haddr, Option.ite_none_right_eq_some, Option.some.injEq, Rule.dnat.injEq]
    tauto
  | snat isp pub => simp [ruleTarget]
  | dnatEstablished isp pub => simp [ruleTarget]
  | snatEstablished isp pub => simp [ruleTarget]
  | _ => exact absurd hr id

theorem target_forward {r : Rule} (hr : ∀ spec, r ≠ .other spec) {t : Target} :
    nf.target .forward p r = some t ↔ t = .drop ∧ ∃ ip, r = .drop ip ∧ nf.covers ip p.src = true := by
  rw [laws.rules _ _ _ hr]
  cases r with
  | drop ip =>
    simp only [ruleTarget, true_and, Option.ite_none_right_eq_some, Option.some.injEq, Rule.drop.injEq, exists_eq_left']
    tauto
  | _ => simp [ruleTarget]

theorem target_postrouting {r : Rule} (hr : Written r) {t : Target} :
    nf.target .postrouting p r = some t ↔
      p.src = serverAddr ∧ ∃ pub, t = .snat pub ∧ r = .snat (network p.dst) pub := by
  have hserver : nf.covers serverIp p.src = true ↔ p.src = serverAddr := text_serverAddr ▸ laws.address serverAddr p.src
  rw [laws.rules _ _ _ hr.ne_other]
  cases r with
  | snat isp pub =>
    obtain ⟨a, b, rfl, rfl⟩ := hr
    have hblock : nf.covers (network a) p.dst = true ↔ network a = network p.dst :=
      (laws.network a p.dst).trans (network_eq_iff a p.dst).symm
    simp only [ruleTarget, true_and, hserver, hblock, Option.ite_none_right_eq_some, Option.some.injEq, Rule.snat.injEq]
    refine ⟨?_, ?_⟩
    · rintro ⟨⟨hsrc, hnet⟩, rfl⟩
      exact ⟨hsrc, b.text, rfl, hnet, rfl⟩
    · rintro ⟨hsrc, pub, rfl, hnet, rfl⟩
      exact ⟨⟨hsrc, hnet⟩, rfl⟩
  | dnat isp pub => simp [ruleTarget]
  | dnatEstablished isp pub => simp [ruleTarget]
  | snatEstablished isp pub => simp [ruleTarget]
  | _ => exact absurd hr id

/-- **Where a first packet goes.** -/
theorem prerouting_eq (h : Own fw) :
    nf.prerouting fw p = if Rule.dnat (network p.src) p.dst.text ∈ fw.nat then serverAddr else p.dst := by
  have hagree : ∀ r ∈ fw.nat, ∀ t, nf.target .prerouting p r = some t → t = .dnat serverAddr := fun r hr t ht =>
    ((target_prerouting laws (h.nat r hr)).1 ht).1
  have hfirst := findSome?_iff_of_agree hagree
  rw [laws.prerouting]
  split_ifs with hmem
  · have hsome : fw.nat.findSome? (nf.target .prerouting p) = some (.dnat serverAddr) :=
      hfirst.2 ⟨_, hmem, (target_prerouting laws (h.nat _ hmem)).2 ⟨rfl, rfl⟩⟩
    rw [hsome]
  · have hnone : fw.nat.findSome? (nf.target .prerouting p) = none := by
      rw [List.findSome?_eq_none_iff]
      intro r hr
      cases ht : nf.target .prerouting p r with
      | none => rfl
      | some t =>
        obtain ⟨-, rfl⟩ := (target_prerouting laws (h.nat r hr)).1 ht
        exact absurd hr hmem
    rw [hnone]

/-- **FORWARD drops exactly the banned sources.** -/
theorem forward_accept_iff (h : Own fw) : nf.forward fw p = .accept ↔ ¬ nf.Dropped fw p.src := by
  have hagree : ∀ r ∈ fw.filter, ∀ t, nf.target .forward p r = some t → t = .drop := fun r hr t ht =>
    ((target_forward laws (h.filter_ne hr)).1 ht).1
  have hfirst : fw.filter.findSome? (nf.target .forward p) = some .drop ↔ nf.Dropped fw p.src := by
    rw [findSome?_iff_of_agree hagree]
    refine ⟨?_, ?_⟩
    · rintro ⟨r, hr, ht⟩
      obtain ⟨-, ip, rfl, hcovers⟩ := (target_forward laws (h.filter_ne hr)).1 ht
      exact ⟨ip, hr, hcovers⟩
    · rintro ⟨ip, hr, hcovers⟩
      exact ⟨_, hr, (target_forward laws (h.filter_ne hr)).2 ⟨rfl, ip, rfl, hcovers⟩⟩
  rw [← hfirst, laws.forward]
  cases hcase : fw.filter.findSome? (nf.target .forward p) with
  | none => simp
  | some t =>
    obtain ⟨r, hr, ht⟩ := List.exists_of_findSome?_eq_some hcase
    obtain rfl := hagree r hr t ht
    simp

/-- **Where a first packet seems to come from**: for one of the server's, the address of an SNAT rule for its
destination if there is one; else its own. -/
theorem postrouting_cases (h : Own fw) :
    (p.src = serverAddr ∧ Rule.snat (network p.dst) (nf.postrouting fw p) ∈ fw.nat) ∨
      (nf.postrouting fw p = p.src.text ∧ (p.src = serverAddr → ∀ pub, Rule.snat (network p.dst) pub ∉ fw.nat)) := by
  rw [laws.postrouting]
  cases hcase : fw.nat.findSome? (nf.target .postrouting p) with
  | none =>
    right
    refine ⟨rfl, ?_⟩
    intro hsrc pub hr
    have hnone := List.findSome?_eq_none_iff.1 hcase _ hr
    rw [(target_postrouting laws (h.nat _ hr)).2 ⟨hsrc, pub, rfl, rfl⟩] at hnone
    cases hnone
  | some t =>
    left
    obtain ⟨r, hr, ht⟩ := List.exists_of_findSome?_eq_some hcase
    obtain ⟨hsrc, pub, rfl, rfl⟩ := (target_postrouting laws (h.nat r hr)).1 ht
    exact ⟨hsrc, hr⟩

/-! ## First packets -/

/-- the filter lets everything through to the server but what is banned -/
theorem pass_iff (hown : Own fw) (hbox : nf.isLocal serverAddr = false) {t : Translated} (ht : t.dst = serverAddr) :
    nf.pass fw p t = true ↔ ¬ nf.Dropped fw p.src := by
  simp only [Chains.pass, ht, hbox, Bool.false_eq_true, if_false, decide_eq_true_eq]
  exact forward_accept_iff laws hown

theorem prerouting_server_iff (hown : Own fw) :
    nf.prerouting fw p = serverAddr ↔ p.dst = serverAddr ∨ Rule.dnat (network p.src) p.dst.text ∈ fw.nat := by
  rw [prerouting_eq laws hown]
  split_ifs with hrule
  · simp [hrule]
  · simp [hrule]

omit laws in
theorem enter_some {t : Translated} (h : nf.enter fw p = some t) :
    t.dst = nf.prerouting fw p ∧ nf.pass fw p t = true ∧
      t.src = if nf.isLocal t.dst then p.src.text else nf.postrouting fw { p with dst := t.dst } := by
  obtain ⟨hpass, h⟩ := Option.ite_none_right_eq_some.1 h
  obtain rfl := Option.some.inj h
  exact ⟨rfl, hpass, rfl⟩

/-- **What comes to the server.** A first packet does exactly when its source is not banned, and it is for the server's
own address or a DNAT rule of its /26 and its destination is there. -/
theorem enter_iff (hown : Own fw) (hbox : nf.isLocal serverAddr = false) :
    (∃ t, nf.enter fw p = some t ∧ t.dst = serverAddr) ↔
      ¬ nf.Dropped fw p.src ∧ (p.dst = serverAddr ∨ Rule.dnat (network p.src) p.dst.text ∈ fw.nat) := by
  refine ⟨?_, ?_⟩
  · rintro ⟨t, h, hdst⟩
    obtain ⟨hto, hpass, -⟩ := enter_some h
    exact ⟨(pass_iff laws hown hbox hdst).1 hpass, (prerouting_server_iff laws hown).1 (hto.symm.trans hdst)⟩
  · rintro ⟨hban, hto⟩
    have hdst : nf.prerouting fw p = serverAddr := (prerouting_server_iff laws hown).2 hto
    let t : Translated := ⟨nf.postrouting fw { p with dst := serverAddr }, serverAddr⟩
    have hpass : nf.pass fw p t = true := (pass_iff laws hown hbox rfl).2 hban
    refine ⟨t, ?_, rfl⟩
    simp only [Chains.enter, hdst, hbox, Bool.false_eq_true, if_false]
    exact if_pos hpass

end Chains

/-! ## A box -/

/-- an argument that is an address or a /26 -/
def plainCovers (arg : Text) (b : IPv4) : Bool := arg = b.text ∨ arg = network b

/-- what the chains do on a box with these addresses, which takes no argument but an address or a /26 and has none but
the server's rules -/
def plainChains (isLocal : IPv4 → Bool) : Chains where
  isLocal := isLocal
  covers := plainCovers
  target := ruleTarget plainCovers
  prerouting := fun fw p =>
    match fw.nat.findSome? (ruleTarget plainCovers .prerouting p) with
    | some (.dnat addr) => addr
    | _ => p.dst
  input := fun fw p =>
    match fw.filter.findSome? (ruleTarget plainCovers .input p) with
    | some .accept => .accept
    | some .drop => .drop
    | _ => fw.inputPolicy
  forward := fun fw p =>
    match fw.filter.findSome? (ruleTarget plainCovers .forward p) with
    | some .drop => .drop
    | _ => .accept
  postrouting := fun fw p =>
    match fw.nat.findSome? (ruleTarget plainCovers .postrouting p) with
    | some (.snat addr) => addr
    | _ => p.src.text

/-- the box, with its connections in a table -/
def tableBox (isLocal : IPv4 → Bool) : Netfilter where
  toChains := plainChains isLocal
  toTracker := tableTracker (plainChains isLocal).enter (plainChains isLocal).pass

theorem text_ne_network (a b : IPv4) : a.text ≠ network b := by
  intro h
  have hslash : '/' ∈ a.text := by
    rw [h, network]
    simp
  simpa using mem_text hslash

theorem tableBox_documented (isLocal : IPv4 → Bool) : (tableBox isLocal).Documented where
  address := by
    intro a b
    have hcovers : (tableBox isLocal).covers a.text b = true ↔ a.text = b.text ∨ a.text = network b := decide_eq_true_iff
    rw [hcovers, or_iff_left (text_ne_network a b), text_injective.eq_iff, eq_comm]
  network := by
    intro a b
    have hcovers : (tableBox isLocal).covers (network a) b = true ↔ network a = b.text ∨ network a = network b :=
      decide_eq_true_iff
    rw [hcovers, or_iff_right (text_ne_network b a).symm, network_eq_iff]
  rules := fun _ _ _ _ => rfl
  prerouting := fun _ _ => rfl
  input := fun _ _ => rfl
  forward := fun _ _ => rfl
  postrouting := fun _ _ => rfl
  tracks := tableTracker_laws _ _

end NetSec.System
