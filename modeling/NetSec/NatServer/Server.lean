/-
The NAT server as a machine: requests and expiries handled one at a time.

Operations: time passes (`wait`); an ADD request (`add`: `manipulateMapping`, then the ACK); a BAN request (`ban`: the
BAN branch of `handleRequest`, then the ACK); each cleaner removes the head of its list once its expiration time has
come (`removeExpiredMappings`: pop, then the expiration action). Requests and expiries of both kinds interleave
in any order. A step that cannot happen is refused: a cleaner pops only a head that is due.

The invariant `Inv` is what every order of steps keeps (`step_inv`), without any condition:
- `past`: no mapping is stamped in the future;
- `onceDnat`, `onceSnat`: the two rules of any pair (prefix, address) occur at most once in the nat table;
- `owned`: a rule of a pair that is there belongs to a mapping still in the list;
- `acked`: every mapping in the list was acknowledged with its full lease when it was stamped;
- `kept`: until its lifetime is over, every acknowledged lease has its mapping in the list.
It says nothing of the rules of a mapping in the list being there: that is what fails.
-/
import NetSec.Core.Run
import NetSec.NatServer.Mappings

namespace NetSec.NatServer

open NetSec.Run NetSec.RuleTable

/-! ## Model -/

inductive Op where
  | wait (d : ℕ)
  | add (ip : Text) (e : AddEnv)
  | ban (ip : Text) (waitStamp : ℕ)
  | expireMapping
  | expireBan
deriving DecidableEq, Repr

/-- the BAN branch of handleRequest: the rule first, then the entry with its own clock reading -/
def banRequest (ip : Text) (waitStamp : ℕ) (s : Server) : Server :=
  let fw := checkAddRule .filter .append (.drop ip) s.fw
  let timeNow := s.now + waitStamp
  { s with now := timeNow, fw := fw, bannedList := s.bannedList ++ [⟨timeNow, ip⟩] }

def step (s : Server) : Op → Option Server
  | .wait d => some { s with now := s.now + d }
  | .add ip e =>
    (manipulateMapping ip e s).map fun (sm, s') =>
      { s' with acks := s'.acks ++ [.lease (ispPrefix e.uninit ip) sm.mappedIP sm.mapTTL s'.now] }
  | .ban ip waitStamp =>
    let s' := banRequest ip waitStamp s
    some { s' with acks := s'.acks ++ [.ban ip (expirationTimeSeconds + gracePeriodSeconds) s'.now] }
  | .expireMapping =>
    match s.mappingList with
    | [] => none
    | m :: rest =>
      if getExpirationTimeMap m.time ≤ s.now then
        some { s with mappingList := rest, fw := handleExpiredMap m s.fw }
      else none
  | .expireBan =>
    match s.bannedList with
    | [] => none
    | b :: rest =>
      if getExpirationTimeMap b.time ≤ s.now then
        some { s with bannedList := rest, fw := handleExpiredBan b s.fw }
      else none

/-- the server before its first request: empty lists, nothing acknowledged -/
structure Start (s : Server) : Prop where
  mappings : s.mappingList = []
  bans : s.bannedList = []
  acks : s.acks = []

/-- no rule of any mapping is in the nat table -/
def NoMappingRule (fw : Firewall) : Prop := ∀ isp pub, Rule.dnat isp pub ∉ fw.nat ∧ Rule.snat isp pub ∉ fw.nat

/-- both unconditional rules of (isp, pub) are installed -/
def Installed (fw : Firewall) (isp pub : Text) : Prop := Rule.dnat isp pub ∈ fw.nat ∧ Rule.snat isp pub ∈ fw.nat

instance (fw : Firewall) (isp pub : Text) : Decidable (Installed fw isp pub) := by
  unfold Installed; infer_instance

/-! ## What each step does -/

/-- the ACK of a running lease, or a new mapping and its ACK -/
theorem step_add {s t : Server} {ip : Text} {e : AddEnv} (h : step s (.add ip e) = some t) :
    let isp := ispPrefix e.uninit ip
    (∃ m, runningLease isp e s = (some m, t.now) ∧ e.draws = [] ∧
        t = { s with
          now := t.now
          acks := s.acks ++ [.lease isp m.publicIP (expirationTimeSeconds - (t.now - m.time)) t.now] }) ∨
      ∃ pub now now', runningLease isp e s = (none, now) ∧
        drawAddress s.mappingList (s.now + e.waitSearch - expirationTimeSeconds) now e.draws = some (pub, now') ∧
        t = { install isp pub (now' + e.waitStamp) s with
          acks := s.acks ++ [.lease isp pub expirationTimeSeconds (now' + e.waitStamp)] } := by
  intro isp
  simp only [step, Option.map_eq_some_iff] at h
  obtain ⟨⟨sm, s'⟩, hm, rfl⟩ := h
  rcases manipulateMapping_some hm with ⟨m, h1, h2, rfl, h4⟩ | ⟨pub, now, now', h1, h2, rfl, rfl⟩
  · left
    refine ⟨m, h1, h2, ?_⟩
    rw [h4]
  · right
    exact ⟨pub, now, now', h1, h2, rfl⟩

theorem step_expireMapping {s t : Server} (h : step s .expireMapping = some t) :
    ∃ m rest, s.mappingList = m :: rest ∧ getExpirationTimeMap m.time ≤ s.now ∧
      t = { s with mappingList := rest, fw := handleExpiredMap m s.fw } := by
  simp only [step] at h
  split at h
  · simp at h
  · rename_i m rest hl
    split_ifs at h with hd
    exact ⟨m, rest, hl, hd, by simpa using h.symm⟩

theorem step_expireBan {s t : Server} (h : step s .expireBan = some t) :
    ∃ b rest, s.bannedList = b :: rest ∧ getExpirationTimeMap b.time ≤ s.now ∧
      t = { s with bannedList := rest, fw := handleExpiredBan b s.fw } := by
  simp only [step] at h
  split at h
  · simp at h
  · rename_i b rest hl
    split_ifs at h with hd
    exact ⟨b, rest, hl, hd, by simpa using h.symm⟩

/-- the clock never goes back during an ADD request -/
theorem install_now_le {s : Server} {isp pub : Text} {e : AddEnv} {now now' : ℤ}
    (hrun : runningLease isp e s = (none, now))
    (hdraw : drawAddress s.mappingList (s.now + e.waitSearch - expirationTimeSeconds) now e.draws = some (pub, now')) :
    s.now ≤ now' + e.waitStamp := by
  have h1 := (runningLease_none hrun).1
  have h2 := (drawAddress_some hdraw).1
  omega

theorem step_now_le {s t : Server} {o : Op} (h : step s o = some t) : s.now ≤ t.now := by
  cases o with
  | wait d => simp only [step, Option.some.injEq] at h; subst h; simp
  | add ip e =>
    rcases step_add h with ⟨m, hrun, -, -⟩ | ⟨pub, now, now', hrun, hdraw, rfl⟩
    · have := (runningLease_some hrun).1; omega
    · exact install_now_le hrun hdraw
  | ban ip w => simp only [step, Option.some.injEq] at h; subst h; simp [banRequest]
  | expireMapping => obtain ⟨m, rest, -, -, rfl⟩ := step_expireMapping h; exact le_rfl
  | expireBan => obtain ⟨b, rest, -, -, rfl⟩ := step_expireBan h; exact le_rfl

/-- acknowledgements are only added -/
theorem acks_step {s t : Server} {o : Op} (h : step s o = some t) : s.acks <+: t.acks := by
  cases o with
  | wait d =>
    simp only [step, Option.some.injEq] at h
    subst h
    exact List.prefix_refl _
  | add ip e =>
    rcases step_add h with ⟨m, -, -, ht⟩ | ⟨pub, now, now', -, -, rfl⟩
    · rw [ht]
      exact List.prefix_append _ _
    · exact List.prefix_append _ _
  | ban ip w =>
    simp only [step, Option.some.injEq] at h
    subst h
    exact List.prefix_append _ _
  | expireMapping =>
    obtain ⟨m, rest, -, -, rfl⟩ := step_expireMapping h
    exact List.prefix_refl _
  | expireBan =>
    obtain ⟨b, rest, -, -, rfl⟩ := step_expireBan h
    exact List.prefix_refl _

/-! ### Rules after an installation and after an expiry -/

theorem nat_install (isp pub : Text) (t : ℤ) (s : Server) :
    (install isp pub t s).fw.nat = addAbsent (.snat isp pub) (addAbsent (.dnat isp pub) s.fw.nat) := by
  simp [install]

theorem nat_handleExpiredMap (m : Mapping) (fw : Firewall) :
    (handleExpiredMap m fw).nat = deleteFirst (.snat m.ispPrefix m.publicIP) (deleteFirst (.dnat m.ispPrefix m.publicIP)
      (addAbsent (.snatEstablished m.ispPrefix m.publicIP)
        (addAbsent (.dnatEstablished m.ispPrefix m.publicIP) fw.nat))) := by
  simp [handleExpiredMap]

/-- an expiry removes the two rules of its own pair and touches no other unconditional rule -/
theorem mem_dnat_handleExpiredMap {m : Mapping} {fw : Firewall} (isp pub : Text)
    (h : ∀ isp pub, fw.nat.count (.dnat isp pub) ≤ 1) :
    Rule.dnat isp pub ∈ (handleExpiredMap m fw).nat ↔
      Rule.dnat isp pub ∈ fw.nat ∧ ¬ (m.ispPrefix = isp ∧ m.publicIP = pub) := by
  rw [nat_handleExpiredMap, mem_deleteFirst_of_ne (by simp), mem_deleteFirst]
  · simp [eq_comm]
  · exact count_addAbsent_le (count_addAbsent_le (h _ _))

theorem mem_snat_handleExpiredMap {m : Mapping} {fw : Firewall} (isp pub : Text)
    (h : ∀ isp pub, fw.nat.count (.snat isp pub) ≤ 1) :
    Rule.snat isp pub ∈ (handleExpiredMap m fw).nat ↔
      Rule.snat isp pub ∈ fw.nat ∧ ¬ (m.ispPrefix = isp ∧ m.publicIP = pub) := by
  rw [nat_handleExpiredMap, mem_deleteFirst, mem_deleteFirst_of_ne (by simp)]
  · simp [eq_comm]
  · exact count_deleteFirst_le (count_addAbsent_le (count_addAbsent_le (h _ _)))

/-- the ESTABLISHED variants are installed by the expiry of their pair and never removed -/
theorem mem_established_handleExpiredMap (m : Mapping) (fw : Firewall) (isp pub : Text) :
    (Rule.dnatEstablished isp pub ∈ (handleExpiredMap m fw).nat ↔
        Rule.dnatEstablished isp pub ∈ fw.nat ∨ (m.ispPrefix = isp ∧ m.publicIP = pub)) ∧
      (Rule.snatEstablished isp pub ∈ (handleExpiredMap m fw).nat ↔
        Rule.snatEstablished isp pub ∈ fw.nat ∨ (m.ispPrefix = isp ∧ m.publicIP = pub)) := by
  rw [nat_handleExpiredMap]
  constructor <;>
    rw [mem_deleteFirst_of_ne (by simp), mem_deleteFirst_of_ne (by simp)] <;> simp [eq_comm]

theorem installed_handleExpiredMap {m : Mapping} {fw : Firewall} {isp pub : Text}
    (hd : ∀ isp pub, fw.nat.count (.dnat isp pub) ≤ 1) (hs : ∀ isp pub, fw.nat.count (.snat isp pub) ≤ 1) :
    Installed (handleExpiredMap m fw) isp pub ↔
      Installed fw isp pub ∧ ¬ (m.ispPrefix = isp ∧ m.publicIP = pub) := by
  unfold Installed
  rw [mem_dnat_handleExpiredMap isp pub hd, mem_snat_handleExpiredMap isp pub hs]
  tauto

/-! ## The invariant -/

structure Inv (s : Server) : Prop where
  past : ∀ m ∈ s.mappingList, m.time ≤ s.now
  onceDnat : ∀ isp pub, s.fw.nat.count (.dnat isp pub) ≤ 1
  onceSnat : ∀ isp pub, s.fw.nat.count (.snat isp pub) ≤ 1
  owned : ∀ isp pub, Rule.dnat isp pub ∈ s.fw.nat ∨ Rule.snat isp pub ∈ s.fw.nat →
    ∃ m ∈ s.mappingList, m.ispPrefix = isp ∧ m.publicIP = pub
  acked : ∀ m ∈ s.mappingList, Ack.lease m.ispPrefix m.publicIP expirationTimeSeconds m.time ∈ s.acks
  kept : ∀ isp pub ttl t, Ack.lease isp pub ttl t ∈ s.acks → s.now ≤ t + ttl →
    ∃ m ∈ s.mappingList, m.ispPrefix = isp ∧ m.publicIP = pub ∧ m.time + expirationTimeSeconds = t + ttl

theorem inv_start {s : Server} (h : Start s) (hn : NoMappingRule s.fw) : Inv s := by
  refine ⟨?_, ?_, ?_, ?_, ?_, ?_⟩
  · simp [h.mappings]
  · intro isp pub
    rw [List.count_eq_zero_of_not_mem (hn isp pub).1]; omega
  · intro isp pub
    rw [List.count_eq_zero_of_not_mem (hn isp pub).2]; omega
  · intro isp pub hr
    exact absurd hr (not_or.2 (hn isp pub))
  · simp [h.mappings]
  · simp [h.acks]

/-- a step that leaves mappings, nat table and leases alone keeps the invariant as the clock moves on -/
theorem inv_of_frame {s t : Server} (h : Inv s) (hnow : s.now ≤ t.now) (hlist : t.mappingList = s.mappingList)
    (hnat : t.fw.nat = s.fw.nat) (hacks : ∀ isp pub ttl sent, Ack.lease isp pub ttl sent ∈ t.acks ↔
      Ack.lease isp pub ttl sent ∈ s.acks) : Inv t := by
  refine ⟨?_, ?_, ?_, ?_, ?_, ?_⟩
  · intro m hm
    rw [hlist] at hm; exact (h.past m hm).trans hnow
  · rw [hnat]; exact h.onceDnat
  · rw [hnat]; exact h.onceSnat
  · rw [hnat, hlist]; exact h.owned
  · intro m hm
    rw [hlist] at hm; exact (hacks _ _ _ _).2 (h.acked m hm)
  · intro isp pub ttl sent ha hle
    rw [hlist]; exact h.kept isp pub ttl sent ((hacks _ _ _ _).1 ha) (hnow.trans hle)

theorem inv_install {s : Server} (h : Inv s) (isp pub : Text) {t : ℤ} (ht : s.now ≤ t) :
    Inv { install isp pub t s with acks := s.acks ++ [.lease isp pub expirationTimeSeconds t] } := by
  refine ⟨?_, ?_, ?_, ?_, ?_, ?_⟩
  · intro m hm
    rcases List.mem_append.1 hm with hm | hm
    · exact (h.past m hm).trans ht
    · rw [List.mem_singleton] at hm; subst hm; exact le_rfl
  · intro i p
    show (install isp pub t s).fw.nat.count _ ≤ 1
    rw [nat_install]; exact count_addAbsent_le (count_addAbsent_le (h.onceDnat i p))
  · intro i p
    show (install isp pub t s).fw.nat.count _ ≤ 1
    rw [nat_install]; exact count_addAbsent_le (count_addAbsent_le (h.onceSnat i p))
  · intro i p hr
    change Rule.dnat i p ∈ (install isp pub t s).fw.nat ∨ Rule.snat i p ∈ (install isp pub t s).fw.nat at hr
    rw [nat_install] at hr
    simp only [mem_addAbsent, reduceCtorEq, or_false, Rule.dnat.injEq, Rule.snat.injEq] at hr
    have hcase : (Rule.dnat i p ∈ s.fw.nat ∨ Rule.snat i p ∈ s.fw.nat) ∨ (i = isp ∧ p = pub) := by tauto
    rcases hcase with hr | ⟨rfl, rfl⟩
    · obtain ⟨m, hm, h1⟩ := h.owned i p hr
      exact ⟨m, List.mem_append_left _ hm, h1⟩
    · exact ⟨⟨t, i, p⟩, List.mem_append_right _ (List.mem_singleton_self _), rfl, rfl⟩
  · intro m hm
    rcases List.mem_append.1 hm with hm | hm
    · exact List.mem_append_left _ (h.acked m hm)
    · rw [List.mem_singleton] at hm; subst hm
      exact List.mem_append_right _ (List.mem_singleton_self _)
  · intro i p ttl t' ha hle
    rcases List.mem_append.1 ha with ha | ha
    · obtain ⟨m, hm, h1⟩ := h.kept i p ttl t' ha (ht.trans hle)
      exact ⟨m, List.mem_append_left _ hm, h1⟩
    · rw [List.mem_singleton, Ack.lease.injEq] at ha
      obtain ⟨rfl, rfl, rfl, rfl⟩ := ha
      exact ⟨⟨t', i, p⟩, List.mem_append_right _ (List.mem_singleton_self _), rfl, rfl, rfl⟩

/-- the answer from a running lease ends when that lease ends -/
theorem inv_answer {s : Server} (h : Inv s) {m : Mapping} (hm : m ∈ s.mappingList) {t : ℤ} (ht : s.now ≤ t) :
    Inv { s with
      now := t
      acks := s.acks ++ [.lease m.ispPrefix m.publicIP (expirationTimeSeconds - (t - m.time)) t] } := by
  refine ⟨?_, h.onceDnat, h.onceSnat, h.owned, ?_, ?_⟩
  · intro x hx
    exact (h.past x hx).trans ht
  · intro x hx
    exact List.mem_append_left _ (h.acked x hx)
  · intro i p ttl t' ha hle
    rcases List.mem_append.1 ha with ha | ha
    · exact h.kept i p ttl t' ha (ht.trans hle)
    · rw [List.mem_singleton, Ack.lease.injEq] at ha
      obtain ⟨rfl, rfl, rfl, rfl⟩ := ha
      exact ⟨m, hm, rfl, rfl, by omega⟩

theorem inv_expireMapping {s : Server} (h : Inv s) {m : Mapping} {rest : List Mapping} (hl : s.mappingList = m :: rest)
    (hdue : getExpirationTimeMap m.time ≤ s.now) :
    Inv { s with mappingList := rest, fw := handleExpiredMap m s.fw } := by
  have hsub : ∀ x ∈ rest, x ∈ s.mappingList := by
    intro x hx
    rw [hl]
    exact List.mem_cons_of_mem _ hx
  refine ⟨?_, ?_, ?_, ?_, ?_, ?_⟩
  · intro x hx
    exact h.past x (hsub x hx)
  · intro i p
    rw [nat_handleExpiredMap]
    exact count_deleteFirst_le (count_deleteFirst_le (count_addAbsent_le (count_addAbsent_le (h.onceDnat i p))))
  · intro i p
    rw [nat_handleExpiredMap]
    exact count_deleteFirst_le (count_deleteFirst_le (count_addAbsent_le (count_addAbsent_le (h.onceSnat i p))))
  · -- a rule that is still there is not of the pair just expired, so its mapping is in the rest
    intro i p hr
    rw [mem_dnat_handleExpiredMap i p h.onceDnat, mem_snat_handleExpiredMap i p h.onceSnat, ← or_and_right] at hr
    obtain ⟨x, hx, h1, h2⟩ := h.owned i p hr.1
    rw [hl] at hx
    rcases List.mem_cons.1 hx with rfl | hx
    · exact absurd ⟨h1, h2⟩ hr.2
    · exact ⟨x, hx, h1, h2⟩
  · intro x hx
    exact h.acked x (hsub x hx)
  · intro i p ttl t ha hle
    obtain ⟨x, hx, h1, h2, h3⟩ := h.kept i p ttl t ha hle
    rw [hl] at hx
    rcases List.mem_cons.1 hx with rfl | hx
    · -- the mapping just expired was at least a grace period past its lease
      unfold getExpirationTimeMap gracePeriodSeconds at hdue
      change s.now ≤ t + ttl at hle
      omega
    · exact ⟨x, hx, h1, h2, h3⟩

theorem step_inv (s : Server) (o : Op) (t : Server) (h : Inv s) (hs : step s o = some t) : Inv t := by
  cases o with
  | wait d =>
    simp only [step, Option.some.injEq] at hs
    subst hs
    exact inv_of_frame h (by simp) rfl rfl fun _ _ _ _ => Iff.rfl
  | add ip e =>
    rcases step_add hs with ⟨m, hrun, -, ht⟩ | ⟨pub, now, now', hrun, hdraw, rfl⟩
    · obtain ⟨h1, h2, h3, -, -⟩ := runningLease_some hrun
      rw [ht, ← h3]
      exact inv_answer h h2 (by omega)
    · exact inv_install h _ _ (install_now_le hrun hdraw)
  | ban ip w =>
    simp only [step, Option.some.injEq] at hs
    subst hs
    exact inv_of_frame h (by simp [banRequest]) rfl (by simp [banRequest]) fun _ _ _ _ => by simp [banRequest]
  | expireMapping =>
    obtain ⟨m, rest, hl, hdue, rfl⟩ := step_expireMapping hs
    exact inv_expireMapping h hl hdue
  | expireBan =>
    obtain ⟨b, rest, -, -, rfl⟩ := step_expireBan hs
    exact inv_of_frame h le_rfl rfl (by simp [handleExpiredBan]) fun _ _ _ _ => Iff.rfl

/-! ## A first state -/

/-- a server that has just set up its access rules on empty tables -/
def bootServer : Server := ⟨0, insertNATAccessRules ⟨[], [], .accept, []⟩, [], [], []⟩

theorem bootServer_start : Start bootServer := ⟨rfl, rfl, rfl⟩

theorem bootServer_noMappingRule : NoMappingRule bootServer.fw := by
  intro isp pub
  simp [bootServer, nat_insertNATAccessRules]

/-- one address asks, the first draw is 195, the clock stands still -/
def addFirst (ip : Text) : Op := .add ip ⟨[], 0, 0, [⟨0, 0⟩], 0⟩

/-- a request whose only draw is `r` -/
def addDraw (ip : Text) (r : ℕ) : Op := .add ip ⟨[], 0, 0, [⟨0, r⟩], 0⟩

def clientA : Text := "10.4.11.17".toList
def clientB : Text := "10.4.12.17".toList

end NetSec.NatServer
