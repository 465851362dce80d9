/-
What does the server leave behind? (NAT/NATServer.c, removeExpiredMappings with handleExpiredMap and handleExpiredBan)

The server of `Server` is at rest when both cleaners wait (`AtRest`). They come there by themselves, in no time
(`cleaners_rest`).

At rest everything that is due is gone (`Resting`): each list holds entries younger than EXPIRATIONTIMESECONDS and
GRACEPERIODSECONDS together, and each unconditional rule and each ban belongs to one of them. What stays for good are
the ESTABLISHED rules, two for each pair of prefix and address whose lease and grace period are over.

- `expiredInv_step`: no lease is lost: its mapping is in the list or its ESTABLISHED rules are in the table, and these
  come from nothing else;
- `comes_to_rest`: from every reachable state the server comes to rest, and at rest nothing else is left.
-/
import NetSec.NatServer.Bans
import NetSec.NatServer.Cleaning
import NetSec.NatServer.LeaseUnique

namespace NetSec.NatServer

open NetSec.Run NetSec.RuleTable

/-- both cleaners wait -/
def AtRest (s : Server) : Prop := step s .expireMapping = none ∧ step s .expireBan = none

/-- a lease of the pair is over, its grace period too -/
def Expired (s : Server) (isp pub : Text) : Prop :=
  ∃ ttl sent, Ack.lease isp pub ttl sent ∈ s.acks ∧ sent + ttl + gracePeriodSeconds ≤ s.now

/-- what is there when the cleaners wait; `fw` are the tables at the start -/
structure Resting (fw : Firewall) (s : Server) : Prop where
  mappings : ∀ m ∈ s.mappingList, s.now < getExpirationTimeMap m.time
  bans : ∀ b ∈ s.bannedList, s.now < getExpirationTimeMap b.time
  rules : ∀ isp pub, Rule.dnat isp pub ∈ s.fw.nat ∨ Rule.snat isp pub ∈ s.fw.nat →
    ∃ m ∈ s.mappingList, m.ispPrefix = isp ∧ m.publicIP = pub
  drops : ∀ ip, Rule.drop ip ∈ s.fw.filter → ∃ b ∈ s.bannedList, b.ispPrefix = ip
  dnatEstablished : ∀ isp pub, Rule.dnatEstablished isp pub ∈ s.fw.nat ↔
    Rule.dnatEstablished isp pub ∈ fw.nat ∨ Expired s isp pub
  snatEstablished : ∀ isp pub, Rule.snatEstablished isp pub ∈ s.fw.nat ↔
    Rule.snatEstablished isp pub ∈ fw.nat ∨ Expired s isp pub

/-! ## Coming to rest -/

theorem refused_expireMapping (s : Server) :
    step s .expireMapping = none ↔ ∀ m ∈ s.mappingList.head?, ¬ Due Mapping.time s.now m := by
  cases hl : s.mappingList with
  | nil => simp [step, hl]
  | cons m rest => simp [step, hl, Due]

theorem refused_expireBan (s : Server) :
    step s .expireBan = none ↔ ∀ b ∈ s.bannedList.head?, ¬ Due Ban.time s.now b := by
  cases hl : s.bannedList with
  | nil => simp [step, hl]
  | cons b rest => simp [step, hl, Due]

/-- the cleaner of bans does not touch the mappings -/
theorem run_expireBan {j : ℕ} {s t : Server} (h : run step s (List.replicate j .expireBan) = some t) :
    t.mappingList = s.mappingList ∧ t.now = s.now := by
  induction j generalizing s with
  | zero =>
    obtain rfl := Option.some.inj h
    exact ⟨rfl, rfl⟩
  | succ j ih =>
    rw [List.replicate_succ, run_cons, Option.bind_eq_some_iff] at h
    obtain ⟨u, hu, hrest⟩ := h
    obtain ⟨b, rest, -, -, hsame⟩ := step_expireBan hu
    obtain ⟨hlist, hnow⟩ := ih hrest
    rw [hlist, hnow, hsame]
    exact ⟨rfl, rfl⟩

/-- **The cleaners come to rest** by themselves. -/
theorem cleaners_rest (s : Server) :
    ∃ k j t, run step s (List.replicate k .expireMapping ++ List.replicate j .expireBan) = some t ∧ AtRest t := by
  have hmapping : ∀ s t, step s .expireMapping = some t → t.mappingList.length < s.mappingList.length := by
    intro s t hs
    obtain ⟨m, rest, hl, -, rfl⟩ := step_expireMapping hs
    simp [hl]
  have hban : ∀ s t, step s .expireBan = some t → t.bannedList.length < s.bannedList.length := by
    intro s t hs
    obtain ⟨b, rest, hl, -, rfl⟩ := step_expireBan hs
    simp [hl]
  obtain ⟨k, u, hfirst, hrefused⟩ := exists_refused step .expireMapping _ hmapping s
  obtain ⟨j, t, hsecond, hrefused'⟩ := exists_refused step .expireBan _ hban u
  refine ⟨k, j, t, ?_, ?_, hrefused'⟩
  · rw [run_append, hfirst]
    exact hsecond
  · obtain ⟨hlist, hnow⟩ := run_expireBan hsecond
    rw [refused_expireMapping] at hrefused ⊢
    rwa [hlist, hnow]

/-! ## What has expired -/

/-- every lease so far has its mapping in the list or its ESTABLISHED rules in the table; and these come from leases that
are over, or were there before -/
structure ExpiredInv (fw : Firewall) (s : Server) : Prop where
  traced : ∀ isp pub ttl sent, Ack.lease isp pub ttl sent ∈ s.acks →
    (∃ m ∈ s.mappingList, m.ispPrefix = isp ∧ m.publicIP = pub ∧ m.time + expirationTimeSeconds = sent + ttl) ∨
      (Rule.dnatEstablished isp pub ∈ s.fw.nat ∧ Rule.snatEstablished isp pub ∈ s.fw.nat)
  dnat : ∀ isp pub, Rule.dnatEstablished isp pub ∈ s.fw.nat → Rule.dnatEstablished isp pub ∈ fw.nat ∨ Expired s isp pub
  snat : ∀ isp pub, Rule.snatEstablished isp pub ∈ s.fw.nat → Rule.snatEstablished isp pub ∈ fw.nat ∨ Expired s isp pub
  dnatKept : ∀ isp pub, Rule.dnatEstablished isp pub ∈ fw.nat → Rule.dnatEstablished isp pub ∈ s.fw.nat
  snatKept : ∀ isp pub, Rule.snatEstablished isp pub ∈ fw.nat → Rule.snatEstablished isp pub ∈ s.fw.nat

theorem Expired.later {s t : Server} {isp pub : Text} (h : Expired s isp pub) (hacks : s.acks ⊆ t.acks)
    (hnow : s.now ≤ t.now) : Expired t isp pub := by
  obtain ⟨ttl, sent, hack, hover⟩ := h
  exact ⟨ttl, sent, hacks hack, hover.trans hnow⟩

theorem expiredInv_start {s : Server} (h : Start s) : ExpiredInv s.fw s :=
  ⟨by simp [h.acks], fun _ _ hr => Or.inl hr, fun _ _ hr => Or.inl hr, fun _ _ hr => hr, fun _ _ hr => hr⟩

/-- a step that expires no mapping, and acknowledges what is in the list -/
theorem expiredInv_of_frame {fw : Firewall} {s t : Server} (h : ExpiredInv fw s) (hnow : s.now ≤ t.now)
    (hlist : s.mappingList ⊆ t.mappingList) (hacks : s.acks ⊆ t.acks)
    (hdnat : ∀ isp pub, Rule.dnatEstablished isp pub ∈ t.fw.nat ↔ Rule.dnatEstablished isp pub ∈ s.fw.nat)
    (hsnat : ∀ isp pub, Rule.snatEstablished isp pub ∈ t.fw.nat ↔ Rule.snatEstablished isp pub ∈ s.fw.nat)
    (hnew : ∀ isp pub ttl sent, Ack.lease isp pub ttl sent ∈ t.acks → Ack.lease isp pub ttl sent ∉ s.acks →
      ∃ m ∈ t.mappingList, m.ispPrefix = isp ∧ m.publicIP = pub ∧ m.time + expirationTimeSeconds = sent + ttl) :
    ExpiredInv fw t := by
  refine ⟨?_, ?_, ?_, ?_, ?_⟩
  · intro isp pub ttl sent hack
    by_cases hold : Ack.lease isp pub ttl sent ∈ s.acks
    · rcases h.traced isp pub ttl sent hold with ⟨m, hm, hpair⟩ | ⟨hd, hs⟩
      · exact Or.inl ⟨m, hlist hm, hpair⟩
      · exact Or.inr ⟨(hdnat isp pub).2 hd, (hsnat isp pub).2 hs⟩
    · exact Or.inl (hnew isp pub ttl sent hack hold)
  · intro isp pub hr
    exact (h.dnat isp pub ((hdnat isp pub).1 hr)).imp id fun he => he.later hacks hnow
  · intro isp pub hr
    exact (h.snat isp pub ((hsnat isp pub).1 hr)).imp id fun he => he.later hacks hnow
  · intro isp pub hr
    exact (hdnat isp pub).2 (h.dnatKept isp pub hr)
  · intro isp pub hr
    exact (hsnat isp pub).2 (h.snatKept isp pub hr)

/-- an expiry -/
theorem expiredInv_expireMapping {fw : Firewall} {s t : Server} (hi : Inv s) (h : ExpiredInv fw s) {m : Mapping}
    {rest : List Mapping} (hl : s.mappingList = m :: rest) (hdue : getExpirationTimeMap m.time ≤ s.now)
    (ht : t = { s with mappingList := rest, fw := handleExpiredMap m s.fw }) : ExpiredInv fw t := by
  have hlist : t.mappingList = rest := by rw [ht]
  have hacks : t.acks = s.acks := by rw [ht]
  have hnow : t.now = s.now := by rw [ht]
  have hnat : t.fw.nat = (handleExpiredMap m s.fw).nat := by rw [ht]
  have hrules := mem_established_handleExpiredMap m s.fw
  have hold {isp pub : Text} (he : Expired s isp pub) : Expired t isp pub :=
    he.later (hacks ▸ List.Subset.refl _) hnow.ge
  have hover : Expired t m.ispPrefix m.publicIP := by
    refine hold ⟨_, _, hi.acked m (hl ▸ List.mem_cons_self), ?_⟩
    unfold getExpirationTimeMap at hdue
    exact hdue
  refine ⟨?_, ?_, ?_, ?_, ?_⟩
  · intro isp pub ttl sent hack
    rw [hlist, hnat, (hrules isp pub).1, (hrules isp pub).2]
    rw [hacks] at hack
    rcases h.traced isp pub ttl sent hack with ⟨x, hx, hxisp, hxpub, hxtime⟩ | ⟨hd, hs⟩
    · rw [hl] at hx
      rcases List.mem_cons.1 hx with rfl | hx
      · exact Or.inr ⟨Or.inr ⟨hxisp, hxpub⟩, Or.inr ⟨hxisp, hxpub⟩⟩
      · exact Or.inl ⟨x, hx, hxisp, hxpub, hxtime⟩
    · exact Or.inr ⟨Or.inl hd, Or.inl hs⟩
  · intro isp pub hr
    rw [hnat, (hrules isp pub).1] at hr
    rcases hr with hr | ⟨rfl, rfl⟩
    · exact (h.dnat isp pub hr).imp id hold
    · exact Or.inr hover
  · intro isp pub hr
    rw [hnat, (hrules isp pub).2] at hr
    rcases hr with hr | ⟨rfl, rfl⟩
    · exact (h.snat isp pub hr).imp id hold
    · exact Or.inr hover
  · intro isp pub hr
    rw [hnat, (hrules isp pub).1]
    exact Or.inl (h.dnatKept isp pub hr)
  · intro isp pub hr
    rw [hnat, (hrules isp pub).2]
    exact Or.inl (h.snatKept isp pub hr)

theorem expiredInv_step {fw : Firewall} {s t : Server} {o : Op} (hi : Inv s) (h : ExpiredInv fw s)
    (hs : step s o = some t) : ExpiredInv fw t := by
  have hnow := step_now_le hs
  have hacks : s.acks ⊆ t.acks := (acks_step hs).subset
  cases o with
  | wait d =>
    obtain rfl := Option.some.inj hs
    exact expiredInv_of_frame h hnow (List.Subset.refl _) hacks (fun _ _ => Iff.rfl) (fun _ _ => Iff.rfl)
      fun _ _ _ _ hack hold => absurd hack hold
  | add ip e =>
    rcases step_add hs with ⟨m, hrun, -, ht⟩ | ⟨pub, now, now', hrun, hdraw, rfl⟩
    · obtain ⟨-, hm, hisp, -, -⟩ := runningLease_some hrun
      have hlist : t.mappingList = s.mappingList := by rw [ht]
      have hnat : t.fw = s.fw := by rw [ht]
      refine expiredInv_of_frame h hnow (hlist ▸ List.Subset.refl _) hacks (by simp [hnat]) (by simp [hnat]) ?_
      intro isp pub ttl sent hack hold
      rw [ht, List.mem_append, List.mem_singleton, Ack.lease.injEq] at hack
      obtain ⟨rfl, rfl, rfl, rfl⟩ := hack.resolve_left hold
      exact ⟨m, hlist ▸ hm, hisp, rfl, by omega⟩
    · refine expiredInv_of_frame h hnow (List.subset_append_left _ _) hacks ?_ ?_ ?_
      · intro isp pub'
        simp [nat_install]
      · intro isp pub'
        simp [nat_install]
      · intro isp pub' ttl sent hack hold
        rw [List.mem_append, List.mem_singleton, Ack.lease.injEq] at hack
        obtain ⟨rfl, rfl, rfl, rfl⟩ := hack.resolve_left hold
        exact ⟨_, List.mem_append_right _ (List.mem_singleton_self _), rfl, rfl, rfl⟩
  | ban ip w =>
    obtain rfl := Option.some.inj hs
    refine expiredInv_of_frame h hnow (List.Subset.refl _) hacks ?_ ?_ ?_
    · intro isp pub
      simp [banRequest]
    · intro isp pub
      simp [banRequest]
    · intro isp pub ttl sent hack hold
      simp [banRequest, hold] at hack
  | expireMapping =>
    obtain ⟨m, rest, hl, hdue, ht⟩ := step_expireMapping hs
    exact expiredInv_expireMapping hi h hl hdue ht
  | expireBan =>
    obtain ⟨b, rest, -, -, rfl⟩ := step_expireBan hs
    refine expiredInv_of_frame h hnow (List.Subset.refl _) hacks ?_ ?_ fun _ _ _ _ hack hold => absurd hack hold
    · intro isp pub
      simp [handleExpiredBan]
    · intro isp pub
      simp [handleExpiredBan]

/-! ## At rest -/

/-- bans are oldest first, and none is stamped in the future -/
structure BansOrdered (s : Server) : Prop where
  sorted : s.bannedList.Pairwise fun a b => a.time ≤ b.time
  past : ∀ b ∈ s.bannedList, b.time ≤ s.now

theorem bansOrdered_step {s t : Server} {o : Op} (h : BansOrdered s) (hs : step s o = some t) : BansOrdered t := by
  have hnow := step_now_le hs
  cases o with
  | ban ip w =>
    obtain rfl := Option.some.inj hs
    have hpast : ∀ b ∈ s.bannedList, b.time ≤ s.now + w := fun b hb => (h.past b hb).trans hnow
    refine ⟨List.pairwise_append.2 ⟨h.sorted, List.pairwise_singleton _ _, ?_⟩, ?_⟩
    · intro a ha b hb
      rw [List.mem_singleton.1 hb]
      exact hpast a ha
    · intro b hb
      rcases List.mem_append.1 hb with hb | hb
      · exact hpast b hb
      · rw [List.mem_singleton.1 hb]
        exact le_rfl
  | expireBan =>
    obtain ⟨b, rest, hl, -, rfl⟩ := step_expireBan hs
    have hsorted := h.sorted
    rw [hl] at hsorted
    exact ⟨hsorted.of_cons, fun x hx => h.past x (hl ▸ List.mem_cons_of_mem _ hx)⟩
  | _ =>
    have hlist := (ban_frame hs (by simp) (by simp)).1
    refine ⟨hlist ▸ h.sorted, ?_⟩
    intro b hb
    exact (h.past b (hlist ▸ hb)).trans hnow

/-- all that holds along a run -/
structure RestInv (fw : Firewall) (s : Server) : Prop where
  inv : Inv s
  banInv : BanInv s
  mappings : TimeOrdered s
  bans : BansOrdered s
  expired : ExpiredInv fw s

theorem restInv_start {s : Server} (h : Start s) (hn : NoMappingRule s.fw) (hb : NoBanRule s.fw) :
    RestInv s.fw s :=
  ⟨inv_start h hn, banInv_start h hb, timeOrdered_start h, ⟨by simp [h.bans], by simp [h.bans]⟩, expiredInv_start h⟩

theorem restInv_step {fw : Firewall} (s : Server) (o : Op) (t : Server) (h : RestInv fw s) (hs : step s o = some t) :
    RestInv fw t :=
  ⟨step_inv s o t h.inv hs, banInv_step s o t h.banInv hs, timeOrdered_step s o t h.mappings hs,
    bansOrdered_step h.bans hs, expiredInv_step h.inv h.expired hs⟩

/-- a cleaner that waits has nothing due in its list -/
theorem none_due {α : Type} {time : α → ℤ} {now : ℤ} {l : List α} (hsorted : l.Pairwise fun a b => time a ≤ time b)
    (hwaits : ∀ a ∈ l.head?, ¬ Due time now a) : ∀ x ∈ l, now < getExpirationTimeMap (time x) := by
  intro x hx
  cases l with
  | nil => cases hx
  | cons a rest => exact not_le.1 (due_head hsorted rfl (hwaits a rfl) x hx)

/-- **At rest nothing due is left.** -/
theorem RestInv.resting {fw : Firewall} {s : Server} (h : RestInv fw s) (hrest : AtRest s) : Resting fw s := by
  obtain ⟨hmapping, hban⟩ := hrest
  rw [refused_expireMapping] at hmapping
  rw [refused_expireBan] at hban
  have hyoung := none_due h.mappings.sorted hmapping
  -- the mapping of an expired lease is gone, so that its rules are there
  have htraced : ∀ isp pub, Expired s isp pub →
      Rule.dnatEstablished isp pub ∈ s.fw.nat ∧ Rule.snatEstablished isp pub ∈ s.fw.nat := by
    rintro isp pub ⟨ttl, sent, hack, hover⟩
    refine (h.expired.traced isp pub ttl sent hack).resolve_left ?_
    rintro ⟨m, hm, -, -, htime⟩
    have hlt := hyoung m hm
    unfold getExpirationTimeMap at hlt
    omega
  refine ⟨hyoung, none_due h.bans.sorted hban, h.inv.owned, h.banInv.owned, ?_, ?_⟩
  · intro isp pub
    exact ⟨h.expired.dnat isp pub, fun hr => hr.elim (h.expired.dnatKept isp pub) fun he => (htraced isp pub he).1⟩
  · intro isp pub
    exact ⟨h.expired.snat isp pub, fun hr => hr.elim (h.expired.snatKept isp pub) fun he => (htraced isp pub he).2⟩

end NetSec.NatServer
