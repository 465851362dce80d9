/-
Can concurrent requests share an address?

`NoSharedAddress`: no two unexpired mappings in the list carry one public address for different prefixes. It fails
(`concurrent_requests_share_address`): the search that finds an address free and the insertion that takes it are two
critical sections, and two handlers can make both searches before either insertion.

An address is `Occupied` for a prefix by an unexpired mapping in the list, or by a handler that has found it free and
has not inserted its mapping yet (`Chosen`). `OneOwner` says that no address is occupied for two prefixes. Only a
successful search can break it: every other step of every thread at most hands an occupied address on or gives one
up (`occupied_step`).

- `oneOwner_iff`: one owner in every state exactly when every successful search finds its address occupied for no
  other prefix (`ProbeClear`);
- `shared_address_from`: after a search that does not, some continuation shares the address;
- `no_shared_address`: both, for the property itself;
- `probeClear_of_chosen`: a search that starts within 2^31 seconds of the request's first clock reading sees every
  unexpired mapping, so that only other handlers are left to clash with.
-/
import NetSec.NatServer.AddressReuse
import NetSec.NatServer.Threads

namespace NetSec.NatServer

open NetSec.Run

/-! ## Properties -/

/-- two unexpired mappings of one address are of one prefix -/
def NoSharedAddress (t : Threads) : Prop :=
  ∀ a ∈ t.srv.mappingList, ∀ b ∈ t.srv.mappingList, Fresh t.srv.now a → Fresh t.srv.now b → a.publicIP = b.publicIP →
    a.ispPrefix = b.ispPrefix

/-- a handler that has found `pub` free for `isp` and whose mapping, not in the list yet, would be unexpired there -/
def Chosen (now : ℤ) (isp pub : Text) : Pc → Prop
  | .addRules isp' pub' _ => isp' = isp ∧ pub' = pub
  | .addStamp isp' pub' => isp' = isp ∧ pub' = pub
  | .addInsert m => m.ispPrefix = isp ∧ m.publicIP = pub ∧ Fresh now m
  | _ => False

/-- `pub` is taken for `isp`, in the list or by a handler -/
def Occupied (t : Threads) (isp pub : Text) : Prop :=
  (∃ m ∈ t.srv.mappingList, m.ispPrefix = isp ∧ m.publicIP = pub ∧ Fresh t.srv.now m) ∨
    ∃ i, Chosen t.srv.now isp pub (t.handler i)

def OneOwner (t : Threads) : Prop := ∀ isp isp' pub, Occupied t isp pub → Occupied t isp' pub → isp = isp'

/-- a search that finds an address free finds it occupied for no other prefix -/
def ProbeClear (t : Threads) : ThreadOp → Prop
  | .handle i _ =>
    match t.handler i with
    | .addProbe isp t0 pub =>
      findElement cmpMaps ⟨t0 - expirationTimeSeconds, none, some pub⟩ t.srv.mappingList = none →
        ∀ isp', Occupied t isp' pub → isp' = isp
    | _ => True
  | _ => True

theorem noSharedAddress_of_oneOwner {t : Threads} (h : OneOwner t) : NoSharedAddress t := by
  intro a ha b hb hfa hfb hab
  exact h _ _ b.publicIP (Or.inl ⟨a, ha, rfl, hab, hfa⟩) (Or.inl ⟨b, hb, rfl, rfl, hfb⟩)

theorem oneOwner_quiet {t : Threads} (hq : Quiet t) (hs : Start t.srv) : OneOwner t := by
  rintro isp isp' pub (⟨m, hm, -⟩ | ⟨i, hi⟩) -
  · simp [hs.mappings] at hm
  · simp [hq.handlers i, Chosen] at hi

theorem Chosen.earlier {isp pub : Text} {pc : Pc} {now now' : ℤ} (h : Chosen now' isp pub pc) (hle : now ≤ now') :
    Chosen now isp pub pc := by
  cases pc with
  | addInsert m => exact ⟨h.1, h.2.1, h.2.2.earlier hle⟩
  | _ => exact h

/-! ## Every step but a successful search -/

/-- what a step of a handler does to the addresses: it finds one free, it inserts the mapping it holds, or it neither
changes the list nor chooses anything -/
theorem handlerStep_addresses {rand : ℕ} {s s' : Server} {pc pc' : Pc} (h : handlerStep rand s pc = some (pc', s')) :
    s'.now = s.now ∧
      ((∃ isp t0 pub, pc = .addProbe isp t0 pub ∧
          findElement cmpMaps ⟨t0 - expirationTimeSeconds, none, some pub⟩ s.mappingList = none ∧
          pc' = .addRules isp pub ⟨mappingCalls isp pub, none⟩ ∧ s' = s) ∨
        (∃ m, pc = .addInsert m ∧ s'.mappingList = s.mappingList ++ [m] ∧ ∀ isp pub, ¬ Chosen s.now isp pub pc') ∨
        (s'.mappingList = s.mappingList ∧ (∀ isp t0 pub, pc = .addProbe isp t0 pub →
          findElement cmpMaps ⟨t0 - expirationTimeSeconds, none, some pub⟩ s.mappingList ≠ none) ∧
          ∀ isp pub, Chosen s.now isp pub pc' → Chosen s.now isp pub pc)) := by
  cases pc with
  | addProbe isp t0 pub =>
    simp only [handlerStep] at h
    split at h
    · rename_i hfound
      simp only [Option.some.injEq, Prod.mk.injEq] at h
      obtain ⟨rfl, rfl⟩ := h
      exact ⟨rfl, Or.inr (Or.inr ⟨rfl, by simp [hfound], fun _ _ hc => hc⟩)⟩
    · rename_i hnone
      simp only [Option.some.injEq, Prod.mk.injEq] at h
      obtain ⟨rfl, rfl⟩ := h
      exact ⟨rfl, Or.inl ⟨isp, t0, pub, rfl, hnone, rfl, rfl⟩⟩
  | addStamp isp pub =>
    simp only [handlerStep, Option.some.injEq, Prod.mk.injEq] at h
    obtain ⟨rfl, rfl⟩ := h
    exact ⟨rfl, Or.inr (Or.inr ⟨rfl, by simp, fun _ _ hc => ⟨hc.1, hc.2.1⟩⟩)⟩
  | addInsert m =>
    simp only [handlerStep, Option.some.injEq, Prod.mk.injEq] at h
    obtain ⟨rfl, rfl⟩ := h
    exact ⟨rfl, Or.inr (Or.inl ⟨m, rfl, rfl, fun _ _ hc => hc⟩)⟩
  | idle => simp [handlerStep] at h
  | _ =>
    -- local steps, and the calls of checkAddRule
    simp only [handlerStep] at h
    (try split at h) <;> simp only [Option.some.injEq, Prod.mk.injEq] at h <;> obtain ⟨rfl, rfl⟩ := h <;>
      exact ⟨rfl, Or.inr (Or.inr ⟨rfl, by simp, fun _ _ hc => hc⟩)⟩

/-- a thread's step after which every choice and every unexpired mapping was occupied before -/
theorem occupied_of_frame {t t' : Threads} {isp pub : Text} (h : Occupied t' isp pub) (hnow : t.srv.now ≤ t'.srv.now)
    (hlist : ∀ m ∈ t'.srv.mappingList, Fresh t.srv.now m → Occupied t m.ispPrefix m.publicIP)
    (hchosen : ∀ i isp pub, Chosen t.srv.now isp pub (t'.handler i) → Occupied t isp pub) : Occupied t isp pub := by
  rcases h with ⟨m, hm, rfl, rfl, hf⟩ | ⟨i, hi⟩
  · exact hlist m hm (hf.earlier hnow)
  · exact hchosen i isp pub (hi.earlier hnow)

theorem occupied_of_listed {t : Threads} {m : Mapping} (hm : m ∈ t.srv.mappingList) (hf : Fresh t.srv.now m) :
    Occupied t m.ispPrefix m.publicIP :=
  Or.inl ⟨m, hm, rfl, rfl, hf⟩

theorem occupied_of_chosen {t : Threads} {i : ℕ} {isp pub : Text} (h : Chosen t.srv.now isp pub (t.handler i)) :
    Occupied t isp pub :=
  Or.inr ⟨i, h⟩

/-- a handler moved on: the others hold what they held -/
theorem chosen_setHandler {t : Threads} {i j : ℕ} {pc : Pc} {srv : Server} {isp pub : Text}
    (h : Chosen t.srv.now isp pub ((t.setHandler i pc srv).handler j)) :
    Chosen t.srv.now isp pub pc ∨ Occupied t isp pub := by
  by_cases hj : j = i
  · subst hj; rw [setHandler_self] at h; exact Or.inl h
  · rw [setHandler_other t hj] at h; exact Or.inr (occupied_of_chosen h)

/-- a handler that gets a request chooses nothing yet -/
theorem occupied_received {t : Threads} {i : ℕ} {pc : Pc} (hpc : ∀ isp pub, ¬ Chosen t.srv.now isp pub pc)
    (isp pub : Text) (h : Occupied (t.setHandler i pc t.srv) isp pub) : Occupied t isp pub := by
  rcases h with hm | ⟨j, hj⟩
  · exact Or.inl hm
  · exact (chosen_setHandler hj).resolve_left (hpc isp pub)

/-- **A successful search chooses its address; nothing else is newly occupied.** -/
theorem occupied_step {t t' : Threads} {o : ThreadOp} (h : threadStep t o = some t') :
    (∃ i rand isp t0 pub, o = .handle i rand ∧ t.handler i = .addProbe isp t0 pub ∧
        findElement cmpMaps ⟨t0 - expirationTimeSeconds, none, some pub⟩ t.srv.mappingList = none ∧
        t' = t.setHandler i (.addRules isp pub ⟨mappingCalls isp pub, none⟩) t.srv) ∨
      (ProbeClear t o ∧ ∀ isp pub, Occupied t' isp pub → Occupied t isp pub) := by
  cases o with
  | wait d =>
    simp only [threadStep, Option.some.injEq] at h
    subst h
    refine Or.inr ⟨trivial, ?_⟩
    intro isp pub ho
    refine occupied_of_frame ho (by simp) ?_ ?_
    · intro m hm hf
      exact occupied_of_listed (t := t) hm hf
    · intro i isp pub hc
      exact occupied_of_chosen (i := i) hc
  | recvAdd i ip uninit =>
    obtain ⟨-, rfl⟩ := threadStep_recvAdd h
    exact Or.inr ⟨trivial, occupied_received fun _ _ => id⟩
  | recvBan i ip =>
    obtain ⟨-, rfl⟩ := threadStep_recvBan h
    exact Or.inr ⟨trivial, occupied_received fun _ _ => id⟩
  | handle i rand =>
    obtain ⟨pc, srv, hs, rfl⟩ := threadStep_handle h
    obtain ⟨hnow, ⟨isp, t0, pub, hpc, hnone, rfl, rfl⟩ | ⟨m, hpc, hlist, hno⟩ | ⟨hlist, hprobe, hsame⟩⟩ :=
      handlerStep_addresses hs
    · exact Or.inl ⟨i, rand, isp, t0, pub, rfl, hpc, hnone, rfl⟩
    · refine Or.inr ⟨by simp [ProbeClear, hpc], ?_⟩
      intro isp pub ho
      refine occupied_of_frame ho hnow.ge ?_ ?_
      · -- the mapping inserted is the one the handler held
        intro x hx hf
        rw [setHandler_srv, hlist] at hx
        rcases List.mem_append.1 hx with hx | hx
        · exact occupied_of_listed hx hf
        · rw [List.mem_singleton.1 hx] at hf ⊢
          exact occupied_of_chosen (i := i) (by rw [hpc]; exact ⟨rfl, rfl, hf⟩)
      · intro j isp pub hc
        exact (chosen_setHandler hc).resolve_left (hno _ _)
    · refine Or.inr ⟨?_, ?_⟩
      · simp only [ProbeClear]
        split
        · rename_i isp t0 pub hpc
          intro hnone
          exact absurd hnone (hprobe isp t0 pub hpc)
        · trivial
      · intro isp pub ho
        refine occupied_of_frame ho hnow.ge ?_ ?_
        · intro x hx hf
          rw [setHandler_srv, hlist] at hx
          exact occupied_of_listed hx hf
        · intro j isp pub hc
          exact (chosen_setHandler hc).elim (fun hc => occupied_of_chosen (i := i) (hsame _ _ hc)) id
  | cleanMapping =>
    obtain ⟨hnow, hhandler, hlist⟩ := threadStep_cleanMapping h
    refine Or.inr ⟨trivial, ?_⟩
    intro isp pub ho
    refine occupied_of_frame ho hnow.ge ?_ ?_
    · intro m hm hf
      refine occupied_of_listed ?_ hf
      rcases hlist with hl | hl <;> rw [hl] at hm
      · exact hm
      · exact List.mem_of_mem_tail hm
    · intro j isp pub hc
      rw [hhandler] at hc
      exact occupied_of_chosen hc
  | cleanBan =>
    obtain ⟨hnow, hhandler, hlist⟩ := threadStep_cleanBan h
    refine Or.inr ⟨trivial, ?_⟩
    intro isp pub ho
    refine occupied_of_frame ho hnow.ge ?_ ?_
    · intro m hm hf
      rw [hlist] at hm
      exact occupied_of_listed hm hf
    · intro j isp pub hc
      rw [hhandler] at hc
      exact occupied_of_chosen hc

/-- what is occupied once handler `i` has found `pub` free -/
theorem occupied_probed {t : Threads} {i : ℕ} {isp pub : Text} {t0 : ℤ} (hi : t.handler i = .addProbe isp t0 pub)
    {calls : Calls} (isp' pub' : Text) :
    Occupied (t.setHandler i (.addRules isp pub calls) t.srv) isp' pub' ↔
      Occupied t isp' pub' ∨ (isp = isp' ∧ pub = pub') := by
  refine ⟨?_, ?_⟩
  · rintro (hm | ⟨j, hj⟩)
    · exact Or.inl (Or.inl hm)
    · exact (chosen_setHandler hj).symm
  · rintro ((hm | ⟨j, hj⟩) | hnew)
    · exact Or.inl hm
    · have hne : j ≠ i := by
        rintro rfl
        rw [hi] at hj
        exact hj
      exact Or.inr ⟨j, by rw [setHandler_other t hne]; exact hj⟩
    · exact Or.inr ⟨i, by rw [setHandler_self]; exact hnew⟩

theorem oneOwner_step {t t' : Threads} {o : ThreadOp} (ho : OneOwner t) (h : threadStep t o = some t') :
    OneOwner t' ↔ ProbeClear t o := by
  rcases occupied_step h with ⟨i, rand, isp, t0, pub, rfl, hi, hnone, rfl⟩ | ⟨hc, hsub⟩
  · simp only [ProbeClear, hi, hnone, forall_const]
    refine ⟨?_, ?_⟩
    · intro h1 isp' hocc
      exact h1 isp' isp pub ((occupied_probed hi isp' pub).2 (Or.inl hocc))
        ((occupied_probed hi isp pub).2 (Or.inr ⟨rfl, rfl⟩))
    · intro hc isp1 isp2 pub' h1 h2
      rcases (occupied_probed hi _ _).1 h1 with h1 | ⟨rfl, rfl⟩ <;>
        rcases (occupied_probed hi _ _).1 h2 with h2 | ⟨rfl, hp⟩
      · exact ho _ _ _ h1 h2
      · exact hc _ (hp ▸ h1)
      · exact (hc _ h2).symm
      · rfl
  · refine iff_of_true ?_ hc
    intro isp1 isp2 pub h1 h2
    exact ho _ _ _ (hsub _ _ h1) (hsub _ _ h2)

/-- one owner in every state, exactly when every successful search is clear -/
theorem oneOwner_iff {t : Threads} (ho : OneOwner t) (ops : List ThreadOp) :
    EveryState threadStep OneOwner t ops ↔ EveryStep threadStep (fun t o _ => ProbeClear t o) t ops :=
  everyState_iff threadStep (I := fun _ => True) (fun _ _ _ _ ho hs => ⟨trivial, oneOwner_step ho hs⟩) trivial ho ops

/-! ## A search that is not clear -/

/-- the stamp and the insertion -/
theorem reaches_stamped (t : Threads) (i : ℕ) (isp pub : Text) (s : Server) :
    Reaches threadStep (t.setHandler i (.addStamp isp pub) s)
      (t.setHandler i (.addReply isp ⟨pub, expirationTimeSeconds⟩)
        { s with mappingList := s.mappingList ++ [⟨s.now, isp, pub⟩] }) :=
  have h : handlerStep 0 s (.addStamp isp pub) = some (.addInsert ⟨s.now, isp, pub⟩, s) := rfl
  (reaches_handle 0 h).trans (reaches_handle 0 rfl)

/-- a handler that has chosen an address can put its mapping into the list at once, unexpired -/
theorem reaches_insert {t : Threads} {i : ℕ} {isp pub : Text} (h : Chosen t.srv.now isp pub (t.handler i)) :
    ∃ s m, Reaches threadStep t (t.setHandler i (.addReply isp ⟨pub, expirationTimeSeconds⟩) s) ∧ s.now = t.srv.now ∧
      s.mappingList = t.srv.mappingList ++ [m] ∧ m.ispPrefix = isp ∧ m.publicIP = pub ∧ Fresh s.now m := by
  have hnow : Fresh t.srv.now ⟨t.srv.now, isp, pub⟩ := by
    unfold Fresh expirationTimeSeconds
    simp
  have hself := setHandler_eq t i
  generalize t.handler i = pc at h hself
  cases pc with
  | addRules isp' pub' calls =>
    obtain ⟨rfl, rfl⟩ := h
    obtain ⟨fw, hdone⟩ := reaches_rulesDone (addRules_makesCalls isp' pub') t i calls t.srv
    have hgo := hdone.trans (reaches_stamped t i isp' pub' { t.srv with fw := fw })
    rw [hself] at hgo
    exact ⟨_, _, hgo, rfl, rfl, rfl, rfl, hnow⟩
  | addStamp isp' pub' =>
    obtain ⟨rfl, rfl⟩ := h
    have hgo := reaches_stamped t i isp' pub' t.srv
    rw [hself] at hgo
    exact ⟨_, _, hgo, rfl, rfl, rfl, rfl, hnow⟩
  | addInsert m =>
    obtain ⟨rfl, rfl, hf⟩ := h
    have hgo : Reaches threadStep (t.setHandler i (.addInsert m) t.srv)
        (t.setHandler i (.addReply m.ispPrefix ⟨m.publicIP, expirationTimeSeconds⟩)
          { t.srv with mappingList := t.srv.mappingList ++ [m] }) := reaches_handle 0 rfl
    rw [hself] at hgo
    exact ⟨_, m, hgo, rfl, rfl, rfl, rfl, hf⟩
  | _ => exact absurd h id

/-- **After a search that is not clear, the address can be shared.** Some continuation, in the same second, puts two
mappings of it for different prefixes into the list. -/
theorem shared_address_from {t t' : Threads} {o : ThreadOp} (h : threadStep t o = some t') (hc : ¬ ProbeClear t o) :
    ∃ u, Reaches threadStep t' u ∧ ¬ NoSharedAddress u := by
  rcases occupied_step h with ⟨i, rand, isp, t0, pub, rfl, hi, hnone, rfl⟩ | ⟨hclear, -⟩
  swap
  · exact absurd hclear hc
  simp only [ProbeClear, hi, hnone, forall_const, not_forall] at hc
  obtain ⟨isp', hocc, hne⟩ := hc
  set v := t.setHandler i (.addRules isp pub ⟨mappingCalls isp pub, none⟩) t.srv with hv
  have hchosen : Chosen v.srv.now isp pub (v.handler i) := by rw [hv, setHandler_self]; exact ⟨rfl, rfl⟩
  rcases hocc with ⟨m, hm, rfl, rfl, hf⟩ | ⟨j, hj⟩
  · obtain ⟨s, m', hreach, hnow, hlist, h1, h2, h3⟩ := reaches_insert hchosen
    refine ⟨_, hreach, ?_⟩
    intro hno
    apply hne
    rw [← h1]
    exact hno m (by rw [setHandler_srv, hlist]; exact List.mem_append_left _ hm) m'
      (by rw [setHandler_srv, hlist]; simp) (by rw [setHandler_srv, hnow]; exact hf) h3 h2.symm
  · -- the other handler inserts first, then this one
    have hji : j ≠ i := by
      rintro rfl
      rw [hi] at hj
      exact hj
    have hjv : Chosen v.srv.now isp' pub (v.handler j) := by rw [hv, setHandler_other t hji]; exact hj
    obtain ⟨s, m, hreach, hnow, hlist, h1, h2, h3⟩ := reaches_insert hjv
    set w := v.setHandler j (.addReply isp' ⟨pub, expirationTimeSeconds⟩) s with hw
    have hiw : Chosen w.srv.now isp pub (w.handler i) := by
      rw [hw, setHandler_other v hji.symm, setHandler_srv, hnow]; exact hchosen
    obtain ⟨s', m', hreach', hnow', hlist', h1', h2', h3'⟩ := reaches_insert hiw
    refine ⟨_, hreach.trans hreach', ?_⟩
    intro hno
    apply hne
    rw [← h1, ← h1']
    refine hno m ?_ m' ?_ ?_ h3' (h2.trans h2'.symm)
    · rw [setHandler_srv, hlist', hw, setHandler_srv, hlist]; simp
    · rw [setHandler_srv, hlist']; simp
    · rw [setHandler_srv, hnow', hw, setHandler_srv]; exact h3

/-- **Requests share no address as long as their searches are clear, and only then.** For every interleaving, from
idle threads and empty lists: if every successful search finds its address occupied for no other prefix, no state has
two unexpired mappings of one address for different prefixes; and after a search that does find it so, some
continuation reaches a state that has. -/
theorem no_shared_address {t : Threads} (hq : Quiet t) (hs : Start t.srv) (ops : List ThreadOp) :
    (EveryStep threadStep (fun t o _ => ProbeClear t o) t ops → EveryState threadStep NoSharedAddress t ops) ∧
      ∀ pre o, pre ++ [o] <+: ops → ∀ u v, run threadStep t pre = some u → threadStep u o = some v →
        ¬ ProbeClear u o → ∃ w, Reaches threadStep v w ∧ ¬ NoSharedAddress w := by
  refine ⟨?_, ?_⟩
  · intro hc pre hpre u hu
    exact noSharedAddress_of_oneOwner ((oneOwner_iff (oneOwner_quiet hq hs) ops).2 hc pre hpre u hu)
  · intro pre o _ u v _ hv hc
    exact shared_address_from hv hc

/-! ## What the window of a search leaves out -/

/-- the clock readings a handler holds for its mapping or its searches -/
def Pc.readings : Pc → List ℤ
  | .addSearch _ t0 => [t0]
  | .addTest _ t0 _ => [t0]
  | .addDraw _ t0 => [t0]
  | .addProbe _ t0 _ => [t0]
  | .addInsert m => [m.time]
  | _ => []

/-- no clock reading, in the list or held by a handler, is ahead of the clock -/
structure Stamped (t : Threads) : Prop where
  listed : ∀ m ∈ t.srv.mappingList, m.time ≤ t.srv.now
  held : ∀ i, ∀ x ∈ (t.handler i).readings, x ≤ t.srv.now

theorem stamped_quiet {t : Threads} (hq : Quiet t) (hs : Start t.srv) : Stamped t :=
  ⟨by simp [hs.mappings], by simp [hq.handlers, Pc.readings]⟩

/-- a handler's reading is an earlier one of its own or the clock; it inserts only what it has read -/
theorem handlerStep_readings {rand : ℕ} {s s' : Server} {pc pc' : Pc} (h : handlerStep rand s pc = some (pc', s')) :
    (∀ x ∈ pc'.readings, x ∈ pc.readings ∨ x = s.now) ∧
      ∀ m ∈ s'.mappingList, m ∈ s.mappingList ∨ m.time ∈ pc.readings := by
  cases pc with
  | idle => simp [handlerStep] at h
  | addInsert m =>
    simp only [handlerStep, Option.some.injEq, Prod.mk.injEq] at h
    obtain ⟨rfl, rfl⟩ := h
    refine ⟨by simp [Pc.readings], ?_⟩
    intro x hx
    rcases List.mem_append.1 hx with hx | hx
    · exact Or.inl hx
    · rw [List.mem_singleton.1 hx]; simp [Pc.readings]
  | _ =>
    simp only [handlerStep] at h
    (try split at h) <;> simp only [Option.some.injEq, Prod.mk.injEq] at h <;> obtain ⟨rfl, rfl⟩ := h <;>
      exact ⟨by simp [Pc.readings], fun _ hm => Or.inl hm⟩

theorem stamped_received {t : Threads} (hst : Stamped t) (i : ℕ) {pc : Pc} (hpc : pc.readings = []) :
    Stamped (t.setHandler i pc t.srv) := by
  refine ⟨hst.listed, ?_⟩
  intro j x hx
  by_cases hj : j = i
  · subst hj
    rw [setHandler_self, hpc] at hx
    cases hx
  · rw [setHandler_other t hj] at hx
    exact hst.held j x hx

theorem stamped_step (t : Threads) (o : ThreadOp) (t' : Threads) (hst : Stamped t) (h : threadStep t o = some t') :
    Stamped t' := by
  cases o with
  | wait d =>
    simp only [threadStep, Option.some.injEq] at h
    subst h
    refine ⟨?_, ?_⟩
    · intro m hm
      exact (hst.listed m hm).trans (by simp)
    · intro i x hx
      exact (hst.held i x hx).trans (by simp)
  | recvAdd i ip uninit =>
    obtain ⟨-, rfl⟩ := threadStep_recvAdd h
    exact stamped_received hst i rfl
  | recvBan i ip =>
    obtain ⟨-, rfl⟩ := threadStep_recvBan h
    exact stamped_received hst i rfl
  | handle i rand =>
    obtain ⟨pc, srv, hs, rfl⟩ := threadStep_handle h
    have hnow := (handlerStep_addresses hs).1
    obtain ⟨hread, hlist⟩ := handlerStep_readings hs
    refine ⟨?_, ?_⟩
    · intro m hm
      rw [setHandler_srv, hnow]
      exact (hlist m hm).elim (hst.listed m) (hst.held i _)
    · intro j x hx
      rw [setHandler_srv, hnow]
      by_cases hj : j = i
      · subst hj
        rw [setHandler_self] at hx
        exact (hread x hx).elim (hst.held j x) fun e => e.le
      · rw [setHandler_other t hj] at hx; exact hst.held j x hx
  | cleanMapping =>
    obtain ⟨hnow, hhandler, hlist⟩ := threadStep_cleanMapping h
    refine ⟨?_, ?_⟩
    · intro m hm
      rw [hnow]
      rcases hlist with hl | hl <;> rw [hl] at hm
      · exact hst.listed m hm
      · exact hst.listed m (List.mem_of_mem_tail hm)
    · intro i x hx
      rw [hhandler] at hx; rw [hnow]; exact hst.held i x hx
  | cleanBan =>
    obtain ⟨hnow, hhandler, hlist⟩ := threadStep_cleanBan h
    exact ⟨by rw [hlist, hnow]; exact hst.listed, by rw [hhandler, hnow]; exact hst.held⟩

/-- **Only other handlers can clash.** In a reachable state, a search made less than 2^31 - 5 seconds after the
request's first clock reading is clear as long as no handler has chosen the address for another prefix. -/
theorem probeClear_of_chosen {t u : Threads} (hq : Quiet t) (hs : Start t.srv) (hu : Reaches threadStep t u)
    {i rand : ℕ} {isp pub : Text} {t0 : ℤ} (hi : u.handler i = .addProbe isp t0 pub)
    (hdelay : u.srv.now - t0 < 2 ^ 31 - expirationTimeSeconds)
    (hothers : ∀ j isp', Chosen u.srv.now isp' pub (u.handler j) → isp' = isp) : ProbeClear u (.handle i rand) := by
  obtain ⟨ops, hops⟩ := hu
  have hst : Stamped u := run_inv threadStep stamped_step (stamped_quiet hq hs) hops
  simp only [ProbeClear, hi]
  rintro hnone isp' (⟨m, hm, rfl, rfl, hf⟩ | ⟨j, hj⟩)
  · have ht0 : t0 ≤ u.srv.now := hst.held i t0 (by simp [hi, Pc.readings])
    have hwin := inWindow_of_fresh (hst.listed m hm) ht0 hf hdelay
    exact absurd ((cmpMaps_address _ _ _).2 ⟨rfl, hwin⟩) (findElement_none hnone m hm)
  · exact hothers j isp' hj

/-! ## Witnesses -/

/-- two handlers in one second, with different draws: both search, then both install and insert -/
def apartRun : List ThreadOp :=
  [.recvAdd 0 clientA [], .recvAdd 1 clientB []] ++ List.replicate 4 (.handle 0 0) ++ List.replicate 4 (.handle 1 1) ++
    List.replicate 7 (.handle 0 0) ++ List.replicate 7 (.handle 1 1)

theorem apartRun_probeClear : EveryStep threadStep (fun t o _ => ProbeClear t o) bootThreads apartRun := by
  iterate 5 refine (everyStep_cons_some threadStep _ rfl _).2 ⟨trivial, ?_⟩
  refine (everyStep_cons_some threadStep _ rfl _).2 ⟨?_, ?_⟩
  · -- handler 1 has not begun
    rintro - isp' (⟨m, hm, -⟩ | ⟨i, hi⟩)
    · cases hm
    · match i with
      | 0 => exact absurd hi id
      | 1 => exact absurd hi id
      | i + 2 => exact absurd hi id
  iterate 3 refine (everyStep_cons_some threadStep _ rfl _).2 ⟨trivial, ?_⟩
  refine (everyStep_cons_some threadStep _ rfl _).2 ⟨?_, ?_⟩
  · -- handler 0 has chosen another address
    rintro - isp' (⟨m, hm, -⟩ | ⟨i, hi⟩)
    · cases hm
    · match i with
      | 0 => exact absurd hi.2 (by decide)
      | 1 => exact absurd hi id
      | i + 2 => exact absurd hi id
  iterate 14 refine (everyStep_cons_some threadStep _ rfl _).2 ⟨trivial, ?_⟩
  exact everyStep_nil threadStep _ _

theorem no_shared_address_apart : EveryState threadStep NoSharedAddress bootThreads apartRun ∧
    ∃ t, run threadStep bootThreads apartRun = some t ∧ t.srv.mappingList.map Mapping.ispPrefix =
      ["10.4.11.0/26".toList, "10.4.12.0/26".toList] :=
  ⟨(no_shared_address bootThreads_quiet bootServer_start apartRun).1 apartRun_probeClear, _, rfl, by decide⟩

/-- both handlers search, then both install and insert; rand() returns the same value in the same second -/
def sharingRun : List ThreadOp :=
  [.recvAdd 0 clientA [], .recvAdd 1 clientB []] ++ List.replicate 4 (.handle 0 0) ++ List.replicate 4 (.handle 1 0) ++
    List.replicate 7 (.handle 0 0) ++ List.replicate 7 (.handle 1 0)

/-- **Two requests in one second share an address.** The list then holds 10.4.11.195 for both prefixes, at age 0. -/
theorem concurrent_requests_share_address : Quiet bootThreads ∧ Start bootThreads.srv ∧
    ¬ EveryState threadStep NoSharedAddress bootThreads sharingRun := by
  refine ⟨bootThreads_quiet, bootServer_start, ?_⟩
  intro h
  obtain ⟨t, ht, hbad⟩ : ∃ t, run threadStep bootThreads sharingRun = some t ∧ ¬ NoSharedAddress t := by
    refine ⟨_, rfl, ?_⟩
    unfold NoSharedAddress
    decide
  exact hbad (h _ (List.prefix_refl _) t ht)

end NetSec.NatServer
