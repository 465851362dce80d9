/-
Are acknowledged leases honoured, and does access end with the mapping?

`Honoured`: until the lifetime of an acknowledged lease is over, both unconditional rules of its pair are installed.
It fails (`renewal_cuts_lease`): within the grace period of a mapping its prefix can draw the same address again. The
list then holds two entries of one pair, `checkAddRule` finds the rules of the first still there and adds nothing, and
the expiry of the first entry deletes the rules under the second.

- `lease_honoured_iff`: a run honours every lease, in every state, exactly when no mapping is expired while another
  entry of the same pair is still within its lease (`ExpiryClear`);
- `access_ends_with_mapping`: in every state, without any condition, each unconditional rule occurs at most once and
  belongs to a mapping in the list; once the last mapping of an expired pair is gone, only the ESTABLISHED variants
  of its rules are left.
-/
import NetSec.NatServer.Server

namespace NetSec.NatServer

open NetSec.Run NetSec.RuleTable

/-! ## Leases -/

/-- until its lifetime is over, both rules of an acknowledged lease are installed -/
def Honoured (s : Server) : Prop :=
  ∀ isp pub ttl sent, Ack.lease isp pub ttl sent ∈ s.acks → s.now ≤ sent + ttl → Installed s.fw isp pub

/-- an expiry finds no other entry of its pair still within its lease -/
def ExpiryClear (s : Server) : Op → Prop
  | .expireMapping => ∀ m rest, s.mappingList = m :: rest → ∀ m' ∈ rest, m'.ispPrefix = m.ispPrefix →
      m'.publicIP = m.publicIP → m'.time + expirationTimeSeconds < s.now
  | _ => True

theorem honoured_start {s : Server} (h : Start s) : Honoured s := by
  intro isp pub ttl sent ha
  simp [h.acks] at ha

/-- a step that removes no rule and acknowledges no lease keeps leases honoured -/
theorem honoured_of_frame {s t : Server} (h : Honoured s) (hnow : s.now ≤ t.now) (hnat : t.fw.nat = s.fw.nat)
    (hacks : ∀ isp pub ttl sent, Ack.lease isp pub ttl sent ∈ t.acks → Ack.lease isp pub ttl sent ∈ s.acks) :
    Honoured t := by
  intro isp pub ttl sent ha hle
  unfold Installed
  rw [hnat]
  exact h isp pub ttl sent (hacks _ _ _ _ ha) (hnow.trans hle)

theorem installed_install (isp pub i p : Text) (t : ℤ) (s : Server) :
    Installed (install isp pub t s).fw i p ↔ Installed s.fw i p ∨ (i = isp ∧ p = pub) := by
  unfold Installed
  rw [nat_install]
  simp only [mem_addAbsent, reduceCtorEq, or_false, Rule.dnat.injEq, Rule.snat.injEq]
  tauto

theorem honoured_add {s t : Server} {ip : Text} {e : AddEnv} (hi : Inv s) (h : Honoured s)
    (hs : step s (.add ip e) = some t) : Honoured t := by
  rcases step_add hs with ⟨m, hrun, -, ht⟩ | ⟨pub, now, now', hrun, hdraw, rfl⟩
  · -- the answered lease is that of a mapping whose own acknowledgement is still running
    obtain ⟨h1, h2, h3, h4, -⟩ := runningLease_some hrun
    rw [ht]
    intro isp pub ttl sent ha hle
    change t.now ≤ sent + ttl at hle
    rcases List.mem_append.1 ha with ha | ha
    · exact h isp pub ttl sent ha (by omega)
    · rw [List.mem_singleton, Ack.lease.injEq] at ha
      obtain ⟨rfl, rfl, -, -⟩ := ha
      exact h3 ▸ h m.ispPrefix m.publicIP _ _ (hi.acked m h2) (by omega)
  · intro isp pub' ttl sent ha hle
    apply (installed_install _ pub _ _ (now' + e.waitStamp) s).2
    rcases List.mem_append.1 ha with ha | ha
    · exact Or.inl (h isp pub' ttl sent ha ((install_now_le hrun hdraw).trans hle))
    · rw [List.mem_singleton, Ack.lease.injEq] at ha
      exact Or.inr ⟨ha.1, ha.2.1⟩

/-- **The step that decides.** An expiry leaves all leases honoured exactly when no other entry of its pair is still
within its lease. -/
theorem honoured_expireMapping {s t : Server} (hi : Inv s) (h : Honoured s) (hs : step s .expireMapping = some t) :
    Honoured t ↔ ExpiryClear s .expireMapping := by
  obtain ⟨m, rest, hl, hdue, rfl⟩ := step_expireMapping hs
  have hrules : ∀ isp pub, Installed (handleExpiredMap m s.fw) isp pub ↔
      Installed s.fw isp pub ∧ ¬ (m.ispPrefix = isp ∧ m.publicIP = pub) := by
    intro isp pub
    exact installed_handleExpiredMap hi.onceDnat hi.onceSnat
  generalize handleExpiredMap m s.fw = fw at hrules ⊢
  refine ⟨?_, ?_⟩
  · intro ht m0 rest0 hl0 m' hm' h1 h2
    rw [hl, List.cons.injEq] at hl0
    obtain ⟨rfl, rfl⟩ := hl0
    by_contra hlate
    have hm : m' ∈ s.mappingList := by rw [hl]; exact List.mem_cons_of_mem _ hm'
    have hinst := (hrules _ _).1 (ht _ _ _ _ (hi.acked m' hm) (not_lt.1 hlate))
    exact hinst.2 ⟨h1.symm, h2.symm⟩
  · intro hc isp pub ttl sent ha hle
    refine (hrules isp pub).2 ⟨h isp pub ttl sent ha hle, ?_⟩
    intro hpair
    obtain ⟨x, hx, h1, h2, h3⟩ := hi.kept isp pub ttl sent ha hle
    rw [hl] at hx
    change s.now ≤ sent + ttl at hle
    rcases List.mem_cons.1 hx with rfl | hx
    · unfold getExpirationTimeMap gracePeriodSeconds at hdue
      omega
    · have := hc m rest hl x hx (h1.trans hpair.1.symm) (h2.trans hpair.2.symm)
      omega

theorem honoured_step {s t : Server} {o : Op} (hi : Inv s) (h : Honoured s) (hs : step s o = some t) :
    Honoured t ↔ ExpiryClear s o := by
  cases o with
  | expireMapping => exact honoured_expireMapping hi h hs
  | add ip e => exact iff_of_true (honoured_add hi h hs) trivial
  | wait d =>
    simp only [step, Option.some.injEq] at hs
    subst hs
    exact iff_of_true (honoured_of_frame h (by simp) rfl fun _ _ _ _ ha => ha) trivial
  | ban ip w =>
    simp only [step, Option.some.injEq] at hs
    subst hs
    refine iff_of_true (honoured_of_frame h (by simp [banRequest]) (by simp [banRequest]) ?_) trivial
    intro isp pub ttl sent ha
    simpa [banRequest] using ha
  | expireBan =>
    obtain ⟨b, rest, -, -, rfl⟩ := step_expireBan hs
    exact iff_of_true (honoured_of_frame h le_rfl (by simp [handleExpiredBan]) fun _ _ _ _ ha => ha) trivial

/-- from any state with the invariant whose leases are honoured -/
theorem honoured_run {s : Server} (hi : Inv s) (hh : Honoured s) (ops : List Op) :
    EveryState step Honoured s ops ↔ EveryStep step (fun s o _ => ExpiryClear s o) s ops :=
  everyState_iff step (I := Inv) (fun s o t hi hh hs => ⟨step_inv s o t hi hs, honoured_step hi hh hs⟩) hi hh ops

/-- **Leases are honoured exactly when expiries are clear.** From a nat table with no mapping rule, for every run of
requests and expiries: both rules of every acknowledged lease are installed in every state up to the end of its
lifetime, if and only if every expiry finds no other entry of the same pair within its lease. -/
theorem lease_honoured_iff {s : Server} (h : Start s) (hn : NoMappingRule s.fw) (ops : List Op) :
    EveryState step Honoured s ops ↔ EveryStep step (fun s o _ => ExpiryClear s o) s ops :=
  honoured_run (inv_start h hn) (honoured_start h) ops

instance (s : Server) : ∀ o, Decidable (ExpiryClear s o)
  | .expireMapping => decidable_of_iff (∀ m ∈ s.mappingList.head?, ∀ m' ∈ s.mappingList.tail,
      m'.ispPrefix = m.ispPrefix → m'.publicIP = m.publicIP → m'.time + expirationTimeSeconds < s.now) <| by
        cases hl : s.mappingList <;> simp [ExpiryClear, hl]
  | .add _ _ | .ban _ _ | .wait _ | .expireBan => isTrue trivial

/-- a lease, a renewal in its grace period that draws another address, the expiry of the first -/
def redrawRun : List Op := [addDraw clientA 0, .wait 6, addDraw clientA 1, .wait 1, .expireMapping]

theorem lease_honoured_iff_redraw : EveryState step Honoured bootServer redrawRun ∧
    ∃ t, run step bootServer redrawRun = some t ∧ t.acks.length = 2 ∧ t.mappingList.length = 1 :=
  ⟨(lease_honoured_iff bootServer_start bootServer_noMappingRule redrawRun).2 (by decide +kernel), _, rfl,
    by decide, by decide⟩

/-- a lease, a renewal in its grace period that draws the same address, the expiry of the first -/
def renewalRun : List Op := [addFirst clientA, .wait 6, addFirst clientA, .wait 1, .expireMapping]

/-- **A renewal in the grace period cuts its own lease.** At second 6 the prefix is given 10.4.11.195 for 5 s; at
second 7 the expiry of its first mapping has removed both rules. -/
theorem renewal_cuts_lease :
    Start bootServer ∧ NoMappingRule bootServer.fw ∧ ¬ EveryState step Honoured bootServer renewalRun := by
  refine ⟨bootServer_start, bootServer_noMappingRule, ?_⟩
  intro h
  obtain ⟨t, ht, hack, hnow, hrule⟩ : ∃ t, run step bootServer renewalRun = some t ∧
      Ack.lease (ispPrefix [] clientA) (fluxAddress 0) 5 6 ∈ t.acks ∧ t.now ≤ 6 + 5 ∧
      ¬ Installed t.fw (ispPrefix [] clientA) (fluxAddress 0) := by
    refine ⟨_, rfl, ?_, ?_, ?_⟩ <;> decide
  exact hrule (h _ (List.prefix_refl _) t ht _ _ _ _ hack hnow)

/-! ## Access -/

/-- the ESTABLISHED variants of a pair are never removed -/
theorem established_step {isp pub : Text} (s : Server) (o : Op) (t : Server)
    (h : Rule.dnatEstablished isp pub ∈ s.fw.nat ∧ Rule.snatEstablished isp pub ∈ s.fw.nat)
    (hs : step s o = some t) :
    Rule.dnatEstablished isp pub ∈ t.fw.nat ∧ Rule.snatEstablished isp pub ∈ t.fw.nat := by
  cases o with
  | wait d => simp only [step, Option.some.injEq] at hs; subst hs; exact h
  | add ip e =>
    rcases step_add hs with ⟨m, -, -, ht⟩ | ⟨pub, now, now', -, -, rfl⟩
    · rw [ht]; exact h
    · have hnat := nat_install (ispPrefix e.uninit ip) pub (now' + e.waitStamp) s
      simp only [hnat, mem_addAbsent]
      exact ⟨Or.inl (Or.inl h.1), Or.inl (Or.inl h.2)⟩
  | ban ip w => simp only [step, Option.some.injEq] at hs; subst hs; simpa [banRequest] using h
  | expireMapping =>
    obtain ⟨m, rest, -, -, rfl⟩ := step_expireMapping hs
    have hm := mem_established_handleExpiredMap m s.fw isp pub
    exact ⟨hm.1.2 (Or.inl h.1), hm.2.2 (Or.inl h.2)⟩
  | expireBan =>
    obtain ⟨b, rest, -, -, rfl⟩ := step_expireBan hs
    simpa [handleExpiredBan] using h

/-- each unconditional rule occurs at most once and belongs to a mapping in the list -/
def AccessOwned (s : Server) : Prop :=
  ∀ isp pub, s.fw.nat.count (.dnat isp pub) ≤ 1 ∧ s.fw.nat.count (.snat isp pub) ≤ 1 ∧
    (Rule.dnat isp pub ∈ s.fw.nat ∨ Rule.snat isp pub ∈ s.fw.nat →
      ∃ m ∈ s.mappingList, m.ispPrefix = isp ∧ m.publicIP = pub)

theorem accessOwned_of_inv {s : Server} (h : Inv s) : AccessOwned s := by
  intro isp pub
  exact ⟨h.onceDnat isp pub, h.onceSnat isp pub, h.owned isp pub⟩

/-- **No access outlives its mapping.** From a nat table with no mapping rule, in every state of every run each
unconditional rule occurs at most once and its pair is that of a mapping in the list. After any expiry of a mapping
of a pair, whatever follows: in a state whose list holds no mapping of the pair, its unconditional rules are gone and
their ESTABLISHED variants are installed. -/
theorem access_ends_with_mapping {s : Server} (h : Start s) (hn : NoMappingRule s.fw) (ops : List Op) :
    EveryState step AccessOwned s ops ∧
      ∀ pre post, ops = pre ++ .expireMapping :: post → ∀ u v t m, run step s pre = some u →
        u.mappingList.head? = some m → step u .expireMapping = some v → run step v post = some t →
        (∀ m' ∈ t.mappingList, ¬ (m'.ispPrefix = m.ispPrefix ∧ m'.publicIP = m.publicIP)) →
        (Rule.dnat m.ispPrefix m.publicIP ∉ t.fw.nat ∧ Rule.snat m.ispPrefix m.publicIP ∉ t.fw.nat) ∧
          Rule.dnatEstablished m.ispPrefix m.publicIP ∈ t.fw.nat ∧
          Rule.snatEstablished m.ispPrefix m.publicIP ∈ t.fw.nat := by
  refine ⟨everyState_of_inv step step_inv (fun _ => accessOwned_of_inv) (inv_start h hn) ops, ?_⟩
  intro pre post _ u v t m hu hhead hv ht hgone
  have hiu : Inv u := run_inv step step_inv (inv_start h hn) hu
  have hit : Inv t := run_inv step step_inv (step_inv _ _ _ hiu hv) ht
  have hnot : ¬ (Rule.dnat m.ispPrefix m.publicIP ∈ t.fw.nat ∨ Rule.snat m.ispPrefix m.publicIP ∈ t.fw.nat) := by
    intro hr
    obtain ⟨m', hm', hpair⟩ := hit.owned _ _ hr
    exact hgone m' hm' hpair
  have hest : Rule.dnatEstablished m.ispPrefix m.publicIP ∈ v.fw.nat ∧
      Rule.snatEstablished m.ispPrefix m.publicIP ∈ v.fw.nat := by
    obtain ⟨m0, rest, hl, -, rfl⟩ := step_expireMapping hv
    rw [hl, List.head?_cons, Option.some.injEq] at hhead
    subst hhead
    have hm := mem_established_handleExpiredMap m0 u.fw m0.ispPrefix m0.publicIP
    exact ⟨hm.1.2 (Or.inr ⟨rfl, rfl⟩), hm.2.2 (Or.inr ⟨rfl, rfl⟩)⟩
  exact ⟨not_or.1 hnot, run_inv step established_step hest ht⟩

theorem access_ends_with_mapping_boot : EveryState step AccessOwned bootServer renewalRun :=
  (access_ends_with_mapping bootServer_start bootServer_noMappingRule renewalRun).1

end NetSec.NatServer
