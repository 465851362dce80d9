/-
Is there at most one running lease for each prefix?

`UniqueLease`: no two entries of one prefix are both fresh (age below EXPIRATIONTIMESECONDS). `AnswersLease`: an ADD
request answers the fresh mapping of its prefix with what is left of its lifetime, and installs a new one only when
the list holds none; ages are taken at the clock reading the request ends with.

Both fail (`boundary_second_lease`): the search accepts an age of exactly EXPIRATIONTIMESECONDS, the freshness test does
not. At that second the first match of the prefix is the old mapping, whatever comes after it in the list, and every
request installs one more.

- `lease_unique_iff`: in a run both hold at every step exactly when no request finds an entry of its prefix that is in
  the search's window but no longer fresh, together with one that stays fresh until the request ends
  (`BoundaryClear`). An entry in the window and not fresh is exactly EXPIRATIONTIMESECONDS old, short of an age of
  2^31 seconds (`age_of_stale_inWindow`).
-/
import NetSec.NatServer.LeaseHonoured

namespace NetSec.NatServer

open NetSec.Run

/-! ## Properties -/

/-- age strictly below EXPIRATIONTIMESECONDS -/
def Fresh (now : ℤ) (m : Mapping) : Prop := now - m.time < expirationTimeSeconds

instance (now : ℤ) (m : Mapping) : Decidable (Fresh now m) := by unfold Fresh; infer_instance

/-- two entries are not both running leases of one prefix -/
def NotBothFresh (now : ℤ) (a b : Mapping) : Prop := ¬ (a.ispPrefix = b.ispPrefix ∧ Fresh now a ∧ Fresh now b)

instance (now : ℤ) : DecidableRel (NotBothFresh now) := fun a b => by unfold NotBothFresh; infer_instance

def UniqueLease (s : Server) : Prop := s.mappingList.Pairwise (NotBothFresh s.now)

/-- a request answers the fresh mapping of its prefix, and installs a new one only when there is none -/
def AnswersLease (s : Server) (o : Op) (t : Server) : Prop :=
  match o with
  | .add ip e =>
    let isp := ispPrefix e.uninit ip
    (t.mappingList = s.mappingList ∧ ∃ m ∈ s.mappingList, m.ispPrefix = isp ∧ Fresh t.now m ∧
        t.acks = s.acks ++ [.lease isp m.publicIP (expirationTimeSeconds - (t.now - m.time)) t.now]) ∨
      ((∃ pub, t.mappingList = s.mappingList ++ [⟨t.now, isp, pub⟩] ∧
          t.acks = s.acks ++ [.lease isp pub expirationTimeSeconds t.now]) ∧
        ∀ m ∈ s.mappingList, m.ispPrefix = isp → ¬ Fresh t.now m)
  | _ => True

/-- no request finds an entry of its prefix in the search's window that is no longer fresh at its first clock
reading, together with one that is still fresh when it ends -/
def BoundaryClear (s : Server) (o : Op) (t : Server) : Prop :=
  match o with
  | .add ip e =>
    ∀ m ∈ s.mappingList, ∀ m' ∈ s.mappingList, m.ispPrefix = ispPrefix e.uninit ip →
      m'.ispPrefix = ispPrefix e.uninit ip → InWindow (s.now + e.waitSearch - expirationTimeSeconds) m →
      ¬ Fresh (s.now + e.waitSearch) m → ¬ Fresh t.now m'
  | _ => True

/-- short of 2^31 seconds, such an entry is exactly EXPIRATIONTIMESECONDS old -/
theorem age_of_stale_inWindow {m : Mapping} {t : ℤ} (hwin : InWindow (t - expirationTimeSeconds) m)
    (hstale : ¬ Fresh t m) (hage : t - m.time ≤ 2 ^ 31) : t - m.time = expirationTimeSeconds := by
  unfold InWindow at hwin
  unfold Fresh at hstale
  unfold expirationTimeSeconds at *
  rw [wrap32_of_lt] at hwin <;> norm_num at * <;> omega

/-- oldest first, and nothing stamped in the future -/
structure TimeOrdered (s : Server) : Prop where
  sorted : s.mappingList.Pairwise fun a b => a.time ≤ b.time
  past : ∀ m ∈ s.mappingList, m.time ≤ s.now

theorem timeOrdered_start {s : Server} (h : Start s) : TimeOrdered s := ⟨by simp [h.mappings], by simp [h.mappings]⟩

theorem timeOrdered_step (s : Server) (o : Op) (t : Server) (h : TimeOrdered s) (hs : step s o = some t) :
    TimeOrdered t := by
  have hnow := step_now_le hs
  cases o with
  | wait d =>
    simp only [step, Option.some.injEq] at hs
    subst hs
    exact ⟨h.sorted, fun m hm => (h.past m hm).trans hnow⟩
  | add ip e =>
    rcases step_add hs with ⟨m, -, -, ht⟩ | ⟨pub, now, now', -, -, rfl⟩
    · rw [ht]; exact ⟨h.sorted, fun m hm => (h.past m hm).trans hnow⟩
    · refine ⟨List.pairwise_append.2 ⟨h.sorted, List.pairwise_singleton _ _, ?_⟩, ?_⟩
      · intro a ha b hb
        rw [List.mem_singleton] at hb; subst hb; exact (h.past a ha).trans hnow
      · intro m hm
        rcases List.mem_append.1 hm with hm | hm
        · exact (h.past m hm).trans hnow
        · rw [List.mem_singleton] at hm; subst hm; exact le_rfl
  | ban ip w =>
    simp only [step, Option.some.injEq] at hs
    subst hs
    exact ⟨h.sorted, fun m hm => (h.past m hm).trans hnow⟩
  | expireMapping =>
    obtain ⟨m, rest, hl, -, rfl⟩ := step_expireMapping hs
    have hsorted := h.sorted
    rw [hl] at hsorted
    exact ⟨hsorted.of_cons, fun x hx => h.past x (hl ▸ List.mem_cons_of_mem _ hx)⟩
  | expireBan =>
    obtain ⟨b, rest, -, -, rfl⟩ := step_expireBan hs
    exact ⟨h.sorted, h.past⟩

/-! ## The exact condition -/

theorem Fresh.earlier {m : Mapping} {t t' : ℤ} (h : Fresh t' m) (hle : t ≤ t') : Fresh t m := by
  unfold Fresh at *
  omega

theorem NotBothFresh.later {a b : Mapping} {t t' : ℤ} (h : NotBothFresh t a b) (hle : t ≤ t') :
    NotBothFresh t' a b :=
  fun hb => h ⟨hb.1, hb.2.1.earlier hle, hb.2.2.earlier hle⟩

instance (now : ℤ) : Std.Symm (NotBothFresh now) := ⟨fun _ _ h hb => h ⟨hb.1.symm, hb.2.2, hb.2.1⟩⟩

/-- removing entries and letting time pass keeps leases unique -/
theorem uniqueLease_of_sublist {s t : Server} (h : UniqueLease s) (hsub : t.mappingList.Sublist s.mappingList)
    (hnow : s.now ≤ t.now) : UniqueLease t :=
  (h.sublist hsub).imp fun hab => hab.later hnow

/-- a fresh entry is in the window of a search made now -/
theorem inWindow_of_fresh_now {s : Server} (h : TimeOrdered s) {m : Mapping} (hm : m ∈ s.mappingList) {t : ℤ}
    (ht : s.now ≤ t) (hf : Fresh t m) : InWindow (t - expirationTimeSeconds) m :=
  inWindow_of_fresh ((h.past m hm).trans ht) le_rfl hf (by unfold expirationTimeSeconds; norm_num)

/-- an answered request is right, and there is no boundary entry before the mapping it answers -/
theorem unique_answered {s t : Server} {ip : Text} {e : AddEnv} {m : Mapping} (ho : TimeOrdered s) (hu : UniqueLease s)
    (hrun : runningLease (ispPrefix e.uninit ip) e s = (some m, t.now))
    (ht : t = { s with
      now := t.now
      acks := s.acks ++
        [.lease (ispPrefix e.uninit ip) m.publicIP (expirationTimeSeconds - (t.now - m.time)) t.now] }) :
    (UniqueLease t ∧ AnswersLease s (.add ip e) t) ∧ BoundaryClear s (.add ip e) t := by
  obtain ⟨hnow, hm, hisp, hfresh, hfirst⟩ := runningLease_some hrun
  refine ⟨⟨?_, Or.inl ⟨by rw [ht], m, hm, hisp, hfresh, by rw [ht]⟩⟩, ?_⟩
  · exact uniqueLease_of_sublist hu (by rw [ht]) (by omega)
  · intro x hx m' _ hxisp _ hxwin hxstale
    -- x would be a match before m, so at least as old as m
    have hle : m.time ≤ x.time := findElement_first (R := fun a b => a.time ≤ b.time) ho.sorted (fun _ => le_rfl)
      hfirst hx ((cmpMaps_ofPrefix _ _ _).2 ⟨hxisp, hxwin⟩)
    refine absurd ?_ hxstale
    unfold Fresh
    omega

/-- an installing request is right exactly when nothing of its prefix is still fresh at its end -/
theorem unique_installed {s : Server} {ip pub : Text} {e : AddEnv} {now now' : ℤ} (ho : TimeOrdered s)
    (hu : UniqueLease s) (hrun : runningLease (ispPrefix e.uninit ip) e s = (none, now))
    (hnow : now ≤ now' + e.waitStamp) :
    let t := { install (ispPrefix e.uninit ip) pub (now' + e.waitStamp) s with
      acks := s.acks ++ [.lease (ispPrefix e.uninit ip) pub expirationTimeSeconds (now' + e.waitStamp)] }
    (UniqueLease t ∧ AnswersLease s (.add ip e) t) ↔ BoundaryClear s (.add ip e) t := by
  intro t
  obtain ⟨hle, hcase⟩ := runningLease_none hrun
  have hend : s.now + e.waitSearch ≤ t.now := hle.trans hnow
  have hgood : (UniqueLease t ∧ AnswersLease s (.add ip e) t) ↔
      ∀ m ∈ s.mappingList, m.ispPrefix = ispPrefix e.uninit ip → ¬ Fresh t.now m := by
    refine ⟨?_, ?_⟩
    · rintro ⟨-, ⟨hl, -⟩ | ⟨-, h⟩⟩
      · simp [t, install] at hl
      · exact h
    · intro h
      refine ⟨List.pairwise_append.2 ⟨hu.imp fun hab => hab.later (by omega), List.pairwise_singleton _ _, ?_⟩,
        Or.inr ⟨⟨pub, rfl, rfl⟩, h⟩⟩
      intro a ha b hb hboth
      rw [List.mem_singleton] at hb
      exact h a ha (hboth.1.trans (by rw [hb])) hboth.2.1
  rw [hgood]
  refine ⟨?_, ?_⟩
  · intro h _ _ m' hm' _ hm'isp _ _
    exact h m' hm' hm'isp
  · intro hc m' hm' hm'isp hfresh
    have hfresh0 : Fresh (s.now + e.waitSearch) m' := hfresh.earlier hend
    rcases hcase with hnone | ⟨m, hm, hmisp, hwin, hstale⟩
    · exact hnone m' hm' hm'isp (inWindow_of_fresh_now ho hm' (by omega) hfresh0)
    · -- the first match is no longer fresh when it is tested, m' still is: they are two entries
      have hne : m ≠ m' := by
        rintro rfl
        have := hfresh.earlier hnow
        unfold Fresh at this
        omega
      refine hc m hm m' hm' hmisp hm'isp hwin ?_ hfresh
      intro hf
      have hle0 : s.now ≤ s.now + e.waitSearch := by omega
      exact hu.forall hm hm' hne ⟨hmisp.trans hm'isp.symm, hf.earlier hle0, hfresh0.earlier hle0⟩

theorem unique_step {s t : Server} {o : Op} (ho : TimeOrdered s) (hu : UniqueLease s) (hs : step s o = some t) :
    (UniqueLease t ∧ AnswersLease s o t) ↔ BoundaryClear s o t := by
  have hnow := step_now_le hs
  cases o with
  | add ip e =>
    rcases step_add hs with ⟨m, hrun, -, ht⟩ | ⟨pub, now, now', hrun, hdraw, rfl⟩
    · obtain ⟨h1, h2⟩ := unique_answered ho hu hrun ht
      exact iff_of_true h1 h2
    · exact unique_installed ho hu hrun (by have := (drawAddress_some hdraw).1; omega)
  | wait d =>
    simp only [step, Option.some.injEq] at hs
    subst hs
    exact iff_of_true ⟨uniqueLease_of_sublist hu (List.Sublist.refl _) hnow, trivial⟩ trivial
  | ban ip w =>
    simp only [step, Option.some.injEq] at hs
    subst hs
    exact iff_of_true ⟨uniqueLease_of_sublist hu (List.Sublist.refl _) hnow, trivial⟩ trivial
  | expireMapping =>
    obtain ⟨m, rest, hl, -, rfl⟩ := step_expireMapping hs
    exact iff_of_true ⟨uniqueLease_of_sublist hu (by rw [hl]; exact List.sublist_cons_self _ _) hnow, trivial⟩ trivial
  | expireBan =>
    obtain ⟨b, rest, -, -, rfl⟩ := step_expireBan hs
    exact iff_of_true ⟨uniqueLease_of_sublist hu (List.Sublist.refl _) hnow, trivial⟩ trivial

/-- **Leases are unique exactly when no request meets the boundary second.** In every run from a server with empty
lists: at every step at most one mapping of each prefix is fresh and every request answers it or installs the only
one, if and only if every request is clear of the boundary. -/
theorem lease_unique_iff {s : Server} (h : Start s) (ops : List Op) :
    EveryStep step (fun s o t => UniqueLease t ∧ AnswersLease s o t) s ops ↔ EveryStep step BoundaryClear s ops := by
  refine everyStep_iff step (I := fun s => TimeOrdered s ∧ UniqueLease s) ?_
    ⟨timeOrdered_start h, by simp [UniqueLease, h.mappings]⟩ ops
  intro s o t hi hs
  exact ⟨unique_step hi.1 hi.2 hs, fun hg => ⟨timeOrdered_step s o t hi.1 hs, hg.1⟩⟩

instance (s t : Server) : ∀ o, Decidable (BoundaryClear s o t)
  | .add ip e => inferInstanceAs (Decidable (∀ m ∈ s.mappingList, ∀ m' ∈ s.mappingList,
      m.ispPrefix = ispPrefix e.uninit ip → m'.ispPrefix = ispPrefix e.uninit ip →
        InWindow (s.now + e.waitSearch - expirationTimeSeconds) m → ¬ Fresh (s.now + e.waitSearch) m → ¬ Fresh t.now m'))
  | .ban _ _ | .wait _ | .expireMapping | .expireBan => isTrue trivial

/-- a second request while the lease runs, one of another prefix, and a third after the expiry -/
def renewedRun : List Op :=
  [addDraw clientA 0, .wait 3, .add clientA ⟨[], 0, 0, [], 0⟩, addDraw clientB 2, .wait 4, .expireMapping,
    addDraw clientA 3]

theorem lease_unique_iff_renewed :
    EveryStep step (fun s o t => UniqueLease t ∧ AnswersLease s o t) bootServer renewedRun ∧
      ∃ t, run step bootServer renewedRun = some t ∧ t.acks.length = 4 ∧ t.mappingList.length = 2 :=
  ⟨(lease_unique_iff bootServer_start renewedRun).2 (by decide +kernel), _, rfl, by decide, by decide⟩

/-- one prefix asks at second 0 and twice at second 5 -/
def boundaryRun : List Op := [addDraw clientA 0, .wait 5, addDraw clientA 1, addDraw clientA 2]

/-- **A second lease at the boundary second.** The request that follows the renewal at second 5 finds the old mapping
again and installs another: two mappings of the prefix have age 0. -/
theorem boundary_second_lease : Start bootServer ∧
    ¬ EveryStep step (fun s o t => UniqueLease t ∧ AnswersLease s o t) bootServer boundaryRun := by
  refine ⟨bootServer_start, ?_⟩
  intro h
  obtain ⟨s, hs, t, ht, hbad⟩ : ∃ s, run step bootServer [addDraw clientA 0, .wait 5, addDraw clientA 1] = some s ∧
      ∃ t, step s (addDraw clientA 2) = some t ∧ ¬ UniqueLease t := by
    refine ⟨_, rfl, _, rfl, ?_⟩
    unfold UniqueLease
    decide
  exact hbad (h _ _ (List.prefix_refl _) s t hs ht).1

end NetSec.NatServer
