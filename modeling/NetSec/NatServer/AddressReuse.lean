/-
Is a public address that is still in use ever handed out again?

`DistinctAddresses`: the mappings in the list, those in their grace period included, have pairwise distinct public
addresses. It fails (`grace_address_reused`): the retry loop looks for the drawn address among the entries at most
EXPIRATIONTIMESECONDS old, while an entry and its rules stay for GRACEPERIODSECONDS more.

- `addresses_distinct_iff`: the addresses of a run are distinct in every state exactly when no request draws the
  address of an entry outside the window of its search (`DrawsClear`);
- `honoured_of_distinctAddresses`: where they are distinct in every state, every lease is honoured.
-/
import NetSec.NatServer.LeaseUnique

namespace NetSec.NatServer

open NetSec.Run

def DistinctAddresses (s : Server) : Prop := s.mappingList.Pairwise fun a b => a.publicIP ≠ b.publicIP

/-- no request draws the address of an entry that the window of its search leaves out -/
def DrawsClear (s : Server) : Op → Prop
  | .add _ e => ∀ d ∈ e.draws, ∀ m ∈ s.mappingList, m.publicIP = fluxAddress d.rand →
      InWindow (s.now + e.waitSearch - expirationTimeSeconds) m
  | _ => True

instance : Std.Symm fun a b : Mapping => a.publicIP ≠ b.publicIP := ⟨fun _ _ h => h.symm⟩

/-- two entries with one address are one entry -/
theorem eq_of_publicIP {s : Server} (h : DistinctAddresses s) {a b : Mapping} (ha : a ∈ s.mappingList)
    (hb : b ∈ s.mappingList) (hab : a.publicIP = b.publicIP) : a = b := by
  by_contra hne
  exact List.Pairwise.forall h ha hb hne hab

/-- **The step that decides.** An installation keeps addresses distinct exactly when none of its draws is the address
of an entry outside the window. -/
theorem distinct_installed {s : Server} {ip isp pub : Text} {e : AddEnv} {now now' t : ℤ} {acks : List Ack}
    (h : DistinctAddresses s)
    (hdraw : drawAddress s.mappingList (s.now + e.waitSearch - expirationTimeSeconds) now e.draws = some (pub, now')) :
    DistinctAddresses { install isp pub t s with acks := acks } ↔ DrawsClear s (.add ip e) := by
  obtain ⟨-, -, hfree, rejected, d, hdraws, hd, hrej⟩ := drawAddress_some hdraw
  have hnew : DistinctAddresses { install isp pub t s with acks := acks } ↔
      ∀ m ∈ s.mappingList, m.publicIP ≠ pub := by
    unfold DistinctAddresses install
    rw [List.pairwise_append]
    exact ⟨fun hp m hm => hp.2.2 m hm _ (List.mem_singleton_self _),
      fun hp => ⟨h, List.pairwise_singleton _ _, fun a ha b hb => by rw [List.mem_singleton.1 hb]; exact hp a ha⟩⟩
  rw [hnew]
  refine ⟨?_, ?_⟩
  · intro hp d' hd' m hm hmd
    rw [hdraws] at hd'
    rcases List.mem_append.1 hd' with hd' | hd'
    · -- a rejected draw was held by an entry in the window, the only one with that address
      obtain ⟨m', hm', h1, h2⟩ := hrej d' hd'
      rwa [eq_of_publicIP h hm hm' (hmd.trans h1.symm)]
    · rw [List.mem_singleton.1 hd', hd] at hmd
      exact absurd hmd (hp m hm)
  · intro hc m hm hmp
    exact hfree m hm hmp (hc d (by rw [hdraws]; simp) m hm (hmp.trans hd.symm))

theorem distinct_step {s t : Server} {o : Op} (h : DistinctAddresses s) (hs : step s o = some t) :
    DistinctAddresses t ↔ DrawsClear s o := by
  cases o with
  | add ip e =>
    rcases step_add hs with ⟨m, -, hnil, ht⟩ | ⟨pub, now, now', -, hdraw, rfl⟩
    · apply iff_of_true (by rw [ht]; exact h)
      simp [DrawsClear, hnil]
    · exact distinct_installed h hdraw
  | wait d => simp only [step, Option.some.injEq] at hs; subst hs; exact iff_of_true h trivial
  | ban ip w => simp only [step, Option.some.injEq] at hs; subst hs; exact iff_of_true h trivial
  | expireMapping =>
    obtain ⟨m, rest, hl, -, rfl⟩ := step_expireMapping hs
    refine iff_of_true ?_ trivial
    unfold DistinctAddresses at h
    rw [hl] at h
    exact h.of_cons
  | expireBan => obtain ⟨b, rest, -, -, rfl⟩ := step_expireBan hs; exact iff_of_true h trivial

/-- **Addresses are distinct exactly when draws are clear.** In every run from a server with empty lists: the mappings
in the list have pairwise distinct public addresses in every state, if and only if no request draws the address of an
entry outside the window of its search. -/
theorem addresses_distinct_iff {s : Server} (h : Start s) (ops : List Op) :
    EveryState step DistinctAddresses s ops ↔ EveryStep step (fun s o _ => DrawsClear s o) s ops :=
  everyState_iff step (I := fun _ => True) (fun _ _ _ _ hd hs => ⟨trivial, distinct_step hd hs⟩) trivial
    (by simp [DistinctAddresses, h.mappings]) ops

instance (s : Server) : ∀ o, Decidable (DrawsClear s o)
  | .add _ e => inferInstanceAs (Decidable (∀ d ∈ e.draws, ∀ m ∈ s.mappingList, m.publicIP = fluxAddress d.rand →
      InWindow (s.now + e.waitSearch - expirationTimeSeconds) m))
  | .ban _ _ | .wait _ | .expireMapping | .expireBan => isTrue trivial

/-- in the grace period of one prefix another draws a second address; the first is drawn again after the expiry -/
def turnoverRun : List Op := [addDraw clientA 0, .wait 6, addDraw clientB 1, .wait 1, .expireMapping, addDraw clientA 0]

theorem addresses_distinct_iff_turnover : EveryState step DistinctAddresses bootServer turnoverRun ∧
    ∃ t, run step bootServer turnoverRun = some t ∧ t.acks.length = 3 ∧ t.mappingList.length = 2 :=
  ⟨(addresses_distinct_iff bootServer_start turnoverRun).2 (by decide +kernel), _, rfl, by decide, by decide⟩

/-- one prefix holds an address; in its grace period another prefix draws it -/
def reuseRun : List Op := [addFirst clientA, .wait 6, addFirst clientB]

/-- **An address in its grace period is handed out again.** At second 6 the list holds 10.4.11.195 for both prefixes,
and the rules of the first are still installed. -/
theorem grace_address_reused : Start bootServer ∧ ¬ EveryState step DistinctAddresses bootServer reuseRun := by
  refine ⟨bootServer_start, ?_⟩
  intro h
  obtain ⟨t, ht, hbad⟩ : ∃ t, run step bootServer reuseRun = some t ∧ ¬ DistinctAddresses t := by
    refine ⟨_, rfl, ?_⟩
    unfold DistinctAddresses
    decide
  exact hbad (h _ (List.prefix_refl _) t ht)

/-- **Distinct addresses keep leases.** An expiry then never meets another entry of its pair. -/
theorem honoured_of_distinctAddresses {s : Server} (h : Start s) (hn : NoMappingRule s.fw) (ops : List Op)
    (hd : EveryState step DistinctAddresses s ops) : EveryState step Honoured s ops := by
  rw [honoured_run (inv_start h hn) (honoured_start h)]
  intro pre o hpre t t' ht _
  have hdt : DistinctAddresses t := hd pre ((List.prefix_append pre [o]).trans hpre) t ht
  cases o with
  | expireMapping =>
    intro m rest hl m' hm' _ hpub
    unfold DistinctAddresses at hdt
    rw [hl, List.pairwise_cons] at hdt
    exact absurd hpub.symm (hdt.1 m' hm')
  | _ => trivial

end NetSec.NatServer
