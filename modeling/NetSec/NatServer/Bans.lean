/-
Do bans last as long as acknowledged?

`BansHold`: the DROP rule of an address is in FORWARD exactly when bannedList holds an entry for it; and an address
whose BAN was acknowledged with a lifetime is dropped until that lifetime is over. It fails (`reban_is_lifted`): all
entries of one address share one rule, and the expiry of the first of them deletes it.

- `bans_hold_iff`: bans hold in every state of a run exactly when no entry is expired while another entry of the same
  address is in the list (`ReleaseClear`);
- `bans_hold_of_no_reban`: it is enough that no BAN names an address that is already in the list.
-/
import NetSec.NatServer.LeaseHonoured

namespace NetSec.NatServer

open NetSec.Run NetSec.RuleTable

/-- no DROP rule is in FORWARD -/
def NoBanRule (fw : Firewall) : Prop := ∀ ip, Rule.drop ip ∉ fw.filter

/-- the rule of an address is installed exactly when the list has an entry for it, and until the lifetime of every
acknowledged ban is over -/
def BansHold (s : Server) : Prop :=
  (∀ ip, Rule.drop ip ∈ s.fw.filter ↔ ∃ b ∈ s.bannedList, b.ispPrefix = ip) ∧
    ∀ ip ttl sent, Ack.ban ip ttl sent ∈ s.acks → s.now < sent + ttl → Rule.drop ip ∈ s.fw.filter

/-- an expiry finds no other entry of its address -/
def ReleaseClear (s : Server) : Op → Prop
  | .expireBan => ∀ b rest, s.bannedList = b :: rest → ∀ b' ∈ rest, b'.ispPrefix ≠ b.ispPrefix
  | _ => True

/-! ## The invariant -/

structure BanInv (s : Server) : Prop where
  once : ∀ ip, s.fw.filter.count (.drop ip) ≤ 1
  owned : ∀ ip, Rule.drop ip ∈ s.fw.filter → ∃ b ∈ s.bannedList, b.ispPrefix = ip
  kept : ∀ ip ttl sent, Ack.ban ip ttl sent ∈ s.acks → s.now < sent + ttl → ∃ b ∈ s.bannedList, b.ispPrefix = ip ∧
    getExpirationTimeMap b.time = sent + ttl

theorem banInv_start {s : Server} (h : Start s) (hn : NoBanRule s.fw) : BanInv s := by
  refine ⟨?_, ?_, ?_⟩
  · intro ip
    rw [List.count_eq_zero_of_not_mem (hn ip)]; omega
  · intro ip hr
    exact absurd hr (hn ip)
  · simp [h.acks]

/-- a step that leaves bans and the filter table alone -/
theorem banInv_of_frame {s t : Server} (h : BanInv s) (hnow : s.now ≤ t.now) (hlist : t.bannedList = s.bannedList)
    (hfilter : t.fw.filter = s.fw.filter)
    (hacks : ∀ ip ttl sent, Ack.ban ip ttl sent ∈ t.acks → Ack.ban ip ttl sent ∈ s.acks) : BanInv t := by
  refine ⟨?_, ?_, ?_⟩
  · rw [hfilter]; exact h.once
  · rw [hfilter, hlist]; exact h.owned
  · intro ip ttl sent ha hlt
    rw [hlist]; exact h.kept ip ttl sent (hacks _ _ _ ha) (hnow.trans_lt hlt)

theorem bansHold_of_frame {s t : Server} (h : BansHold s) (hnow : s.now ≤ t.now) (hlist : t.bannedList = s.bannedList)
    (hfilter : t.fw.filter = s.fw.filter)
    (hacks : ∀ ip ttl sent, Ack.ban ip ttl sent ∈ t.acks → Ack.ban ip ttl sent ∈ s.acks) : BansHold t := by
  refine ⟨?_, ?_⟩
  · rw [hfilter, hlist]; exact h.1
  · intro ip ttl sent ha hlt
    rw [hfilter]; exact h.2 ip ttl sent (hacks _ _ _ ha) (hnow.trans_lt hlt)

/-- given the invariant, the rules alone decide -/
theorem bansHold_iff {s : Server} (h : BanInv s) :
    BansHold s ↔ ∀ b ∈ s.bannedList, Rule.drop b.ispPrefix ∈ s.fw.filter := by
  refine ⟨?_, ?_⟩
  · intro hb b hm
    exact (hb.1 _).2 ⟨b, hm, rfl⟩
  · intro hb
    refine ⟨fun ip => ⟨h.owned ip, ?_⟩, ?_⟩
    · rintro ⟨b, hm, rfl⟩
      exact hb b hm
    · intro ip ttl sent ha hlt
      obtain ⟨b, hm, rfl, -⟩ := h.kept ip ttl sent ha hlt
      exact hb b hm

theorem filter_handleExpiredMap (m : Mapping) (fw : Firewall) : (handleExpiredMap m fw).filter = fw.filter := by
  simp [handleExpiredMap]

theorem filter_install (isp pub : Text) (t : ℤ) (s : Server) : (install isp pub t s).fw.filter = s.fw.filter := by
  simp [install]

/-- the steps that are not about bans change neither the list nor the rules nor the acknowledgements of bans -/
theorem ban_frame {s t : Server} {o : Op} (hs : step s o = some t) (hban : ∀ ip w, o ≠ .ban ip w)
    (hexp : o ≠ .expireBan) : t.bannedList = s.bannedList ∧ t.fw.filter = s.fw.filter ∧
      ∀ ip ttl sent, Ack.ban ip ttl sent ∈ t.acks → Ack.ban ip ttl sent ∈ s.acks := by
  cases o with
  | wait d => simp only [step, Option.some.injEq] at hs; subst hs; exact ⟨rfl, rfl, fun _ _ _ h => h⟩
  | add ip e =>
    rcases step_add hs with ⟨m, -, -, ht⟩ | ⟨pub, now, now', -, -, rfl⟩
    · rw [ht]
      exact ⟨rfl, rfl, fun _ _ _ h => by simpa using h⟩
    · exact ⟨rfl, by simp only [filter_install], fun _ _ _ h => by simpa using h⟩
  | ban ip w => exact absurd rfl (hban ip w)
  | expireMapping =>
    obtain ⟨m, rest, -, -, rfl⟩ := step_expireMapping hs
    exact ⟨rfl, by simp only [filter_handleExpiredMap], fun _ _ _ h => h⟩
  | expireBan => exact absurd rfl hexp

theorem banInv_ban {s : Server} (h : BanInv s) (ip : Text) (w : ℕ) :
    BanInv { banRequest ip w s with
      acks := s.acks ++ [.ban ip (expirationTimeSeconds + gracePeriodSeconds) (s.now + w)] } := by
  refine ⟨?_, ?_, ?_⟩
  · intro x
    simp only [banRequest, filter_checkAddRule_append]
    exact count_addAbsent_le (h.once x)
  · intro x hr
    simp only [banRequest, filter_checkAddRule_append, mem_addAbsent, Rule.drop.injEq] at hr
    rcases hr with hr | rfl
    · obtain ⟨b, hb, hx⟩ := h.owned x hr
      exact ⟨b, List.mem_append_left _ hb, hx⟩
    · exact ⟨⟨s.now + w, x⟩, List.mem_append_right _ (List.mem_singleton_self _), rfl⟩
  · intro x ttl sent ha hlt
    rcases List.mem_append.1 ha with ha | ha
    · change s.now + w < sent + ttl at hlt
      obtain ⟨b, hb, hx⟩ := h.kept x ttl sent ha (by omega)
      exact ⟨b, List.mem_append_left _ hb, hx⟩
    · rw [List.mem_singleton, Ack.ban.injEq] at ha
      obtain ⟨rfl, rfl, rfl⟩ := ha
      exact ⟨⟨s.now + w, x⟩, List.mem_append_right _ (List.mem_singleton_self _), rfl,
        Int.add_assoc _ _ _⟩

theorem banInv_expireBan {s : Server} (h : BanInv s) {b : Ban} {rest : List Ban} (hl : s.bannedList = b :: rest)
    (hdue : getExpirationTimeMap b.time ≤ s.now) :
    BanInv { s with bannedList := rest, fw := handleExpiredBan b s.fw } := by
  refine ⟨?_, ?_, ?_⟩
  · intro x
    simp only [handleExpiredBan, filter_checkAddRule_delete]
    exact count_deleteFirst_le (h.once x)
  · intro x hr
    simp only [handleExpiredBan, filter_checkAddRule_delete, mem_deleteFirst (h.once _), Rule.drop.injEq, ne_eq] at hr
    obtain ⟨b', hb', hx⟩ := h.owned x hr.1
    rw [hl] at hb'
    rcases List.mem_cons.1 hb' with rfl | hb'
    · exact absurd hx.symm hr.2
    · exact ⟨b', hb', hx⟩
  · intro x ttl sent ha hlt
    obtain ⟨b', hb', h1, h2⟩ := h.kept x ttl sent ha hlt
    rw [hl] at hb'
    rcases List.mem_cons.1 hb' with rfl | hb'
    · change s.now < sent + ttl at hlt
      omega
    · exact ⟨b', hb', h1, h2⟩

theorem banInv_step (s : Server) (o : Op) (t : Server) (h : BanInv s) (hs : step s o = some t) : BanInv t := by
  cases o with
  | ban ip w => simp only [step, Option.some.injEq] at hs; subst hs; exact banInv_ban h ip w
  | expireBan =>
    obtain ⟨b, rest, hl, hdue, rfl⟩ := step_expireBan hs
    exact banInv_expireBan h hl hdue
  | _ =>
    obtain ⟨h1, h2, h3⟩ := ban_frame hs (by simp) (by simp)
    exact banInv_of_frame h (step_now_le hs) h1 h2 h3

/-! ## The exact condition -/

theorem bansHold_step {s t : Server} {o : Op} (hi : BanInv s) (h : BansHold s) (hs : step s o = some t) :
    BansHold t ↔ ReleaseClear s o := by
  have hit := banInv_step s o t hi hs
  cases o with
  | ban ip w =>
    refine iff_of_true ((bansHold_iff hit).2 ?_) trivial
    intro b hb
    simp only [step, Option.some.injEq] at hs
    subst hs
    simp only [banRequest, filter_checkAddRule_append, mem_addAbsent, Rule.drop.injEq]
    rcases List.mem_append.1 hb with hb | hb
    · exact Or.inl ((h.1 _).2 ⟨b, hb, rfl⟩)
    · rw [List.mem_singleton] at hb; subst hb; exact Or.inr rfl
  | expireBan =>
    rw [bansHold_iff hit]
    obtain ⟨b, rest, hl, -, rfl⟩ := step_expireBan hs
    have hmem : ∀ b' ∈ rest, (Rule.drop b'.ispPrefix ∈ (handleExpiredBan b s.fw).filter ↔
        b'.ispPrefix ≠ b.ispPrefix) := by
      intro b' hb'
      have hb : b' ∈ s.bannedList := by
        rw [hl]
        exact List.mem_cons_of_mem _ hb'
      have hin : Rule.drop b'.ispPrefix ∈ s.fw.filter := (h.1 _).2 ⟨b', hb, rfl⟩
      simp only [handleExpiredBan, filter_checkAddRule_delete, mem_deleteFirst (hi.once _), hin, true_and, ne_eq,
        Rule.drop.injEq]
    refine ⟨?_, ?_⟩
    · intro ht b0 rest0 hl0 b' hb'
      rw [hl, List.cons.injEq] at hl0
      obtain ⟨rfl, rfl⟩ := hl0
      exact (hmem b' hb').1 (ht b' hb')
    · intro hc b' hb'
      exact (hmem b' hb').2 (hc b rest hl b' hb')
  | _ =>
    obtain ⟨h1, h2, h3⟩ := ban_frame hs (by simp) (by simp)
    exact iff_of_true (bansHold_of_frame h (step_now_le hs) h1 h2 h3) trivial

theorem bansHold_start {s : Server} (h : Start s) (hn : NoBanRule s.fw) : BansHold s :=
  (bansHold_iff (banInv_start h hn)).2 (by simp [h.bans])

/-- from any state with the invariant whose bans hold -/
theorem bansHold_run {s : Server} (hi : BanInv s) (hb : BansHold s) (ops : List Op) :
    EveryState step BansHold s ops ↔ EveryStep step (fun s o _ => ReleaseClear s o) s ops :=
  everyState_iff step (I := BanInv) (fun s o t hi hb hs => ⟨banInv_step s o t hi hs, bansHold_step hi hb hs⟩) hi hb ops

/-- **Bans hold exactly when expiries are clear.** From no DROP rule in FORWARD, for every run of requests and
expiries: the rule of every address is installed exactly while the list has an entry for it, and until the end of
every acknowledged lifetime, if and only if no entry is expired while another of its address is in the list. -/
theorem bans_hold_iff {s : Server} (h : Start s) (hn : NoBanRule s.fw) (ops : List Op) :
    EveryState step BansHold s ops ↔ EveryStep step (fun s o _ => ReleaseClear s o) s ops :=
  bansHold_run (banInv_start h hn) (bansHold_start h hn) ops

theorem bootServer_noBanRule : NoBanRule bootServer.fw := by
  intro ip
  simp [bootServer, insertNATAccessRules, system]

instance (s : Server) : ∀ o, Decidable (ReleaseClear s o)
  | .expireBan => decidable_of_iff (∀ b ∈ s.bannedList.head?, ∀ b' ∈ s.bannedList.tail, b'.ispPrefix ≠ b.ispPrefix) <| by
      cases hl : s.bannedList <;> simp [ReleaseClear, hl]
  | .add _ _ | .ban _ _ | .wait _ | .expireMapping => isTrue trivial

/-- two addresses are banned, the first ban expires, and the address is banned again while the other's still runs -/
def bansRun : List Op :=
  [.ban clientA 0, .wait 3, .ban clientB 0, .wait 4, .expireBan, .ban clientA 0, .wait 3, .expireBan]

theorem bans_hold_iff_bans : EveryState step BansHold bootServer bansRun ∧
    ∃ t, run step bootServer bansRun = some t ∧ t.acks.length = 3 ∧ Rule.drop clientA ∈ t.fw.filter ∧
      Rule.drop clientB ∉ t.fw.filter :=
  ⟨(bans_hold_iff bootServer_start bootServer_noBanRule bansRun).2 (by decide +kernel), _, rfl, by decide,
    by decide, by decide⟩

/-- an address is banned at second 0 and again at second 3 -/
def rebanRun : List Op := [.ban clientA 0, .wait 3, .ban clientA 0, .wait 4, .expireBan]

/-- **A repeated ban is lifted with the first.** At second 7 the address has an entry that was acknowledged until
second 10, and no rule. -/
theorem reban_is_lifted :
    Start bootServer ∧ NoBanRule bootServer.fw ∧ ¬ EveryState step BansHold bootServer rebanRun := by
  refine ⟨bootServer_start, bootServer_noBanRule, ?_⟩
  intro h
  obtain ⟨t, ht, hack, hnow, hrule⟩ : ∃ t, run step bootServer rebanRun = some t ∧
      Ack.ban clientA 7 3 ∈ t.acks ∧ t.now < 3 + 7 ∧ Rule.drop clientA ∉ t.fw.filter := by
    refine ⟨_, rfl, ?_, ?_, ?_⟩ <;> decide
  exact hrule ((h _ (List.prefix_refl _) t ht).2 _ _ _ hack hnow)

/-! ## A condition on requests alone -/

/-- a BAN names an address that has no entry -/
def NoReban (s : Server) : Op → Prop
  | .ban ip _ => ∀ b ∈ s.bannedList, b.ispPrefix ≠ ip
  | _ => True

/-- no two entries are of one address -/
def DistinctBans (s : Server) : Prop := s.bannedList.Pairwise fun a b => a.ispPrefix ≠ b.ispPrefix

theorem distinctBans_step {s t : Server} {o : Op} (h : DistinctBans s) (hc : NoReban s o) (hs : step s o = some t) :
    DistinctBans t := by
  cases o with
  | ban ip w =>
    simp only [step, Option.some.injEq] at hs
    subst hs
    refine List.pairwise_append.2 ⟨h, List.pairwise_singleton _ _, ?_⟩
    intro a ha b hb
    rw [List.mem_singleton.1 hb]
    exact hc a ha
  | expireBan =>
    obtain ⟨b, rest, hl, -, rfl⟩ := step_expireBan hs
    unfold DistinctBans at h
    rw [hl] at h
    exact h.of_cons
  | _ =>
    have hl := (ban_frame hs (by simp) (by simp)).1
    unfold DistinctBans
    rw [hl]
    exact h

/-- **No re-ban is enough.** If no BAN names an address that is already in the list, every ban holds. -/
theorem bans_hold_of_no_reban {s : Server} (h : Start s) (hn : NoBanRule s.fw) (ops : List Op)
    (hc : EveryStep step (fun s o _ => NoReban s o) s ops) : EveryState step BansHold s ops := by
  rw [bansHold_run (banInv_start h hn) (bansHold_start h hn)]
  have h0 : DistinctBans s := by simp [DistinctBans, h.bans]
  clear h hn
  induction ops generalizing s with
  | nil => exact everyStep_nil step _ s
  | cons o ops ih =>
    rw [everyStep_cons] at hc ⊢
    intro t ht
    obtain ⟨hc1, hc2⟩ := hc t ht
    refine ⟨?_, ih hc2 (distinctBans_step h0 hc1 ht)⟩
    cases o with
    | expireBan =>
      intro b rest hl b' hb'
      unfold DistinctBans at h0
      rw [hl, List.pairwise_cons] at h0
      exact (h0.1 b' hb').symm
    | _ => trivial

end NetSec.NatServer
