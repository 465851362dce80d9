/-
Which blocks are read after they have been freed? (NAT/NATServer.c, lines 305-365, 514-606 and 616-649)

Where no two operations on a list overlap, nobody frees a Mapping of a list, and a cleaner frees what it alone holds,
once. What is freed has been due: its lease and its grace period are over (`BlocksInv`). Only the match that a handler
has found is held by others as well. Its lease was not over when the handler read the clock for its search, so that it
is not due before the grace period has gone by (`grace_of_due`). cmpMaps compares times in 32 bits, which is why this is
said of the first 2^31 seconds.

- `only_late_matches`: in every run, what a step reads or frees has not been freed before, unless a handler comes to its
  match GRACEPERIODSECONDS or more after the clock reading of its search; all of it has been allocated, but for the
  `publicIP` of a ban;
- `match_lost`: and a handler that waits for long finds its match freed, from every reachable state.
-/
import NetSec.NatServer.Blocks
import NetSec.NatServer.Progress

namespace NetSec.NatServer

open NetSec.Ownership NetSec.Run

/-! ## What holds in every state -/

section Invariant

variable {start : ℤ} {x y : Blocks}

/-- an address that findElement has returned for a search of time `t0`: of a Mapping that was in the list -/
structure Found (x : Blocks) (t0 : ℤ) (a : ℕ) : Prop where
  window : InWindow (t0 - expirationTimeSeconds) (x.mapping a)
  set : (x.block a).publicIP ≠ none
  listed : a ∈ x.mappingList ∨ a ∈ x.mappingCleaner.popped ∨ a ∈ x.gone

def HandlerOk (x : Blocks) : BlockPc → Prop
  | .addSearch _ t0 => t0 ≤ x.now
  | .addTest _ t0 found => t0 ≤ x.now ∧ Found x t0 found
  | .addCompare _ t0 found _ => t0 ≤ x.now ∧ Found x t0 found
  | .addCopy _ t0 found _ => t0 ≤ x.now ∧ Found x t0 found
  | .addInsert isp pub map => x.block map = ⟨x.time map, isp, some pub⟩
  | .banInsert ip map => x.block map = ⟨x.time map, ip, none⟩
  | _ => True

/-- a mapping's `publicIP` has been set, a ban's has not -/
structure Kinds (x : Blocks) : Prop where
  mapping : ∀ a, a ∈ x.mappingList ∨ a ∈ x.mappingCleaner.popped → (x.block a).publicIP ≠ none
  ban : ∀ a, a ∈ x.bannedList ∨ a ∈ x.banCleaner.popped → (x.block a).publicIP = none

/-- what is freed of a Mapping: all of it, if its `publicIP` has been set -/
def frees (x : Blocks) (a : ℕ) : List (ℕ × Part) :=
  (if (x.block a).publicIP = none then expiredBanFrees else expiredMapFrees).map (Prod.mk a)

structure BlocksInv (start : ℤ) (x : Blocks) : Prop where
  placed : x.Placed
  kinds : Kinds x
  freed : x.freed = x.gone.flatMap (frees x)
  mapping : Sound x.time x.now x.mappingList x.mappingCleaner
  ban : Sound x.time x.now x.bannedList x.banCleaner
  due : ∀ a ∈ x.gone, Due x.time x.now a
  stamped : start ≤ x.now ∧ ∀ a < x.heap.length, start ≤ x.time a
  handlers : ∀ i, HandlerOk x (x.handler i)

/-- what no step takes back -/
structure Later (x y : Blocks) : Prop where
  now : x.now ≤ y.now
  heap : x.heap <+: y.heap
  listed : ∀ a, a ∈ x.mappingList ∨ a ∈ x.mappingCleaner.popped ∨ a ∈ x.gone →
    a ∈ y.mappingList ∨ a ∈ y.mappingCleaner.popped ∨ a ∈ y.gone

theorem Later.block (h : Later x y) {a : ℕ} (ha : a < x.heap.length) : y.block a = x.block a := by
  obtain ⟨new, hnew⟩ := h.heap
  rw [Blocks.block, ← hnew, List.getElem?_append_left ha, Blocks.block]

theorem Later.time (h : Later x y) {a : ℕ} (ha : a < x.heap.length) : y.time a = x.time a := by
  rw [Blocks.time, h.block ha, Blocks.time]

theorem listed_lt (h : x.Placed) {a : ℕ} (ha : a ∈ x.mappingList ∨ a ∈ x.mappingCleaner.popped ∨ a ∈ x.gone) :
    a < x.heap.length := by
  rcases ha with ha | ha | ha
  · exact h.issued_of_mem (k := Place.mappingList) ha
  · exact h.issued_of_mem (k := Place.mappingCleaner) ha
  · exact h.issued_of_mem (k := Place.freed) ha

/-- what a cleaner takes off its list it holds, and what it held it has freed -/
theorem cleanerStep_mem {time : ℕ → ℤ} {action : ℕ → List Call} {now : ℤ} {list list' : List ℕ} {fw fw' : Firewall}
    {pc pc' : CleanerPc ℕ} (h : cleanerStep time action now list fw pc = some (pc', list', fw')) {a : ℕ}
    (ha : a ∈ list ∨ a ∈ pc.popped) : a ∈ list' ∨ a ∈ pc'.popped ∨ a ∈ pc.freeing := by
  rcases cleanerStep_cases h with ⟨rfl, hpopped, -⟩ | ⟨b, rfl, hpopped, hpopped', hfree⟩ | ⟨b, rfl, hpopped, -, hfree⟩
  · rw [hpopped]
    exact ha.imp id Or.inl
  · rw [hpopped] at ha
    rw [hpopped', hfree]
    simpa [or_comm] using ha
  · rw [hpopped] at ha
    rw [hfree]
    exact ha.imp id Or.inr

theorem later_step {o : ThreadOp} (hs : blockStep x o = some y) : Later x y := by
  cases blockEffect hs with
  | clock d => exact ⟨by simp, List.prefix_refl _, fun _ ha => ha⟩
  | turn => exact ⟨le_rfl, List.prefix_refl _, fun _ ha => ha⟩
  | malloc => exact ⟨le_rfl, List.prefix_append _ _, fun _ ha => ha⟩
  | insertMapping => exact ⟨le_rfl, List.prefix_refl _, fun _ ha => ha.imp (List.mem_append_left _) id⟩
  | insertBan => exact ⟨le_rfl, List.prefix_refl _, fun _ ha => ha⟩
  | cleanMapping clean =>
    refine ⟨le_rfl, List.prefix_refl _, ?_⟩
    intro a ha
    rw [Blocks.gone, gone_mapping, List.mem_append]
    rcases ha with ha | ha | ha
    · have := cleanerStep_mem clean (Or.inl ha)
      tauto
    · have := cleanerStep_mem clean (Or.inr ha)
      tauto
    · exact Or.inr (Or.inr (Or.inl ha))
  | cleanBan =>
    refine ⟨le_rfl, List.prefix_refl _, ?_⟩
    intro a ha
    rw [Blocks.gone, gone_ban, List.mem_append]
    exact ha.imp id (Or.imp id Or.inl)

/-! ### Handlers -/

theorem Found.later {t0 : ℤ} {a : ℕ} (h : Found x t0 a) (hplaced : x.Placed) (hlater : Later x y) : Found y t0 a := by
  obtain ⟨hwindow, hset, hlisted⟩ := h
  have hblock : y.block a = x.block a := hlater.block (listed_lt hplaced hlisted)
  refine ⟨?_, ?_, hlater.listed a hlisted⟩
  · rw [Blocks.mapping, hblock]
    exact hwindow
  · rwa [hblock]

/-- a handler that is not at its turn -/
theorem HandlerOk.later {pc : BlockPc} (h : HandlerOk x pc) (hplaced : x.Placed)
    (hmade : ∀ a ∈ pc.made, a < x.heap.length) (hlater : Later x y) : HandlerOk y pc := by
  cases pc with
  | addSearch isp t0 => exact le_trans h hlater.now
  | addTest isp t0 found | addCompare isp t0 found _ | addCopy isp t0 found _ =>
    exact ⟨h.1.trans hlater.now, h.2.later hplaced hlater⟩
  | addInsert isp pub map | banInsert ip map =>
    have hlt := hmade map (List.mem_singleton_self map)
    simpa only [HandlerOk, hlater.block hlt, hlater.time hlt] using h
  | _ => trivial

/-- the handler whose turn it is -/
theorem handlerOk_blockHandler {rand : ℕ} {pc pc' : BlockPc} (hkinds : Kinds x) (h : HandlerOk x pc)
    (hs : blockHandler rand x pc = some (pc', y)) : HandlerOk y pc' := by
  cases pc with
  | idle => cases hs
  | addStart isp =>
    obtain ⟨rfl, rfl⟩ := Prod.mk.inj (Option.some.inj hs)
    exact le_rfl
  | addSearch isp t0 =>
    simp only [blockHandler] at hs
    split at hs <;> obtain ⟨rfl, rfl⟩ := Prod.mk.inj (Option.some.inj hs)
    · trivial
    · rename_i found hfound
      obtain ⟨hmem, hcmp⟩ := findElement_some hfound
      exact ⟨h, ((cmpMaps_ofPrefix _ _ _).1 hcmp).2, hkinds.mapping found (Or.inl hmem), Or.inl hmem⟩
  | addTest isp t0 found =>
    obtain ⟨rfl, rfl⟩ := Prod.mk.inj (Option.some.inj hs)
    exact h
  | addCompare isp t0 found timeNow =>
    simp only [blockHandler] at hs
    split_ifs at hs <;> obtain ⟨rfl, rfl⟩ := Prod.mk.inj (Option.some.inj hs)
    · exact h
    · trivial
  | addStamp isp pub | banStamp ip =>
    obtain ⟨rfl, rfl⟩ := Prod.mk.inj (Option.some.inj hs)
    simp [HandlerOk, Blocks.block, Blocks.time]
  | addProbe isp t0 pub | addRules isp pub calls | banRules ip calls =>
    simp only [blockHandler] at hs
    split at hs <;> obtain ⟨rfl, rfl⟩ := Prod.mk.inj (Option.some.inj hs) <;> trivial
  | _ =>
    obtain ⟨rfl, rfl⟩ := Prod.mk.inj (Option.some.inj hs)
    trivial

theorem handlerOk_setHandler {i : ℕ} {pc : BlockPc} (pc' : BlockPc) :
    HandlerOk (x.setHandler i pc) pc' ↔ HandlerOk x pc' := by
  have hfound (t0 : ℤ) (a : ℕ) : Found (x.setHandler i pc) t0 a ↔ Found x t0 a :=
    ⟨fun h => ⟨h.window, h.set, h.listed⟩, fun h => ⟨h.window, h.set, h.listed⟩⟩
  cases pc' with
  | addTest isp t0 found | addCompare isp t0 found _ | addCopy isp t0 found _ =>
    exact and_congr Iff.rfl (hfound t0 found)
  | _ => exact Iff.rfl

theorem handlers_step {o : ThreadOp} (h : BlocksInv start x) (hs : blockStep x o = some y) (j : ℕ) :
    HandlerOk y (y.handler j) := by
  have hlater := later_step hs
  have hothers : HandlerOk y (x.handler j) :=
    (h.handlers j).later h.placed (fun a ha => h.placed.issued_of_mem (k := Place.handler j) ha) hlater
  cases o with
  | wait d =>
    obtain rfl := Option.some.inj hs
    exact hothers
  | recvAdd i ip uninit | recvBan i ip =>
    simp only [blockStep] at hs
    split_ifs at hs
    obtain rfl := Option.some.inj hs
    by_cases hj : j = i
    · subst hj
      simp [Blocks.setHandler, HandlerOk]
    · simpa [Blocks.setHandler, hj] using hothers
  | handle i rand =>
    obtain ⟨pc, z, hz, rfl⟩ := blockStep_handle hs
    have hturn : HandlerOk (z.setHandler i pc) pc :=
      (handlerOk_setHandler pc).2 (handlerOk_blockHandler h.kinds (h.handlers i) hz)
    have hsame : z.handler = x.handler := (blockHandler_frame hz).1
    by_cases hj : j = i
    · subst hj
      simpa [Blocks.setHandler] using hturn
    · simpa [Blocks.setHandler, hj, hsame] using hothers
  | cleanMapping | cleanBan =>
    simp only [blockStep, Option.map_eq_some_iff] at hs
    obtain ⟨⟨pc, list, fw⟩, -, rfl⟩ := hs
    exact hothers

/-! ### Cleaners -/

/-- the times of what a cleaner knows are all that matters -/
theorem Sound.congr {time time' : ℕ → ℤ} {now : ℤ} {list : List ℕ} {pc : CleanerPc ℕ} (h : Sound time now list pc)
    (hlist : ∀ a ∈ list, time' a = time a) (hpopped : ∀ a ∈ pc.popped, time' a = time a) : Sound time' now list pc := by
  cases pc with
  | popping elm =>
    refine ⟨h.1, ?_⟩
    rw [Due, hlist elm (List.mem_of_head? h.1)]
    exact h.2
  | acting waited popped calls =>
    obtain ⟨rfl, hdue⟩ := h
    refine ⟨rfl, ?_⟩
    rw [Due, hpopped waited (List.mem_singleton_self waited)]
    exact hdue
  | _ => exact h

theorem Sound.freeing {time : ℕ → ℤ} {now : ℤ} {list : List ℕ} {pc : CleanerPc ℕ} (h : Sound time now list pc) :
    ∀ a ∈ pc.freeing, Due time now a := by
  intro a ha
  unfold CleanerPc.freeing at ha
  split at ha
  · obtain ⟨hsome, hdue⟩ := h
    rw [List.mem_singleton.1 ha, Option.some.inj hsome]
    exact hdue
  · cases ha

theorem sounds_step {o : ThreadOp} (h : BlocksInv start x) (hs : blockStep x o = some y) :
    Sound y.time y.now y.mappingList y.mappingCleaner ∧ Sound y.time y.now y.bannedList y.banCleaner ∧
      ∀ a ∈ y.gone, Due y.time y.now a := by
  have hlater := later_step hs
  -- the times of the blocks that somebody holds
  have hheld {k : Place} {a : ℕ} (ha : a ∈ x.holding k) : y.time a = x.time a :=
    hlater.time (h.placed.issued_of_mem ha)
  have hmapping : Sound y.time x.now x.mappingList x.mappingCleaner :=
    h.mapping.congr (fun _ ha => hheld (k := Place.mappingList) ha) fun _ ha => hheld (k := Place.mappingCleaner) ha
  have hban : Sound y.time x.now x.bannedList x.banCleaner :=
    h.ban.congr (fun _ ha => hheld (k := Place.bannedList) ha) fun _ ha => hheld (k := Place.banCleaner) ha
  have hdue : ∀ a ∈ x.gone, Due y.time x.now a := by
    intro a ha
    rw [Due, hheld (k := Place.freed) ha]
    exact h.due a ha
  cases blockEffect hs with
  | clock d => exact ⟨hmapping.later hlater.now, hban.later hlater.now, fun a ha => (hdue a ha).trans hlater.now⟩
  | turn => exact ⟨hmapping, hban, hdue⟩
  | malloc => exact ⟨hmapping, hban, hdue⟩
  | insertMapping => exact ⟨hmapping.append _, hban, hdue⟩
  | insertBan => exact ⟨hmapping, hban.append _, hdue⟩
  | cleanMapping clean =>
    obtain ⟨pc, list, fw, hc, hsound⟩ := sound_cleanerStep h.mapping (fun a => expiredMapCalls (x.mapping a)) x.fw
    obtain ⟨rfl, rfl, rfl⟩ : _ ∧ _ ∧ _ := by simpa using hc.symm.trans clean
    refine ⟨hsound, hban, ?_⟩
    intro a ha
    rw [Blocks.gone, gone_mapping] at ha
    exact (List.mem_append.1 ha).elim (hdue a) (h.mapping.freeing a)
  | cleanBan clean =>
    obtain ⟨pc, list, fw, hc, hsound⟩ := sound_cleanerStep h.ban (fun a => expiredBanCalls (x.ban a)) x.fw
    obtain ⟨rfl, rfl, rfl⟩ : _ ∧ _ ∧ _ := by simpa using hc.symm.trans clean
    refine ⟨hmapping, hsound, ?_⟩
    intro a ha
    rw [Blocks.gone, gone_ban] at ha
    exact (List.mem_append.1 ha).elim (hdue a) (h.ban.freeing a)

theorem stampedBlocks_step {o : ThreadOp} (h : BlocksInv start x) (hs : blockStep x o = some y) :
    start ≤ y.now ∧ ∀ a < y.heap.length, start ≤ y.time a := by
  have hlater := later_step hs
  have hold : ∀ a < x.heap.length, start ≤ y.time a := fun a ha => hlater.time ha ▸ h.stamped.2 a ha
  refine ⟨h.stamped.1.trans hlater.now, ?_⟩
  cases blockEffect hs with
  | @malloc i pc b had made stamp =>
    intro a ha
    simp only [Blocks.setHandler, List.length_append, List.length_singleton] at ha
    rcases Nat.lt_succ_iff_lt_or_eq.1 ha with ha | rfl
    · exact hold a ha
    · simpa [Blocks.setHandler, Blocks.time, Blocks.block, stamp] using h.stamped.1
  | _ => exact hold

/-- a step of a cleaner leaves it and its list with blocks that they had -/
theorem held_cleanerStep {time : ℕ → ℤ} {action : ℕ → List Call} {now : ℤ} {list list' : List ℕ} {fw fw' : Firewall}
    {pc pc' : CleanerPc ℕ} (h : cleanerStep time action now list fw pc = some (pc', list', fw')) {a : ℕ}
    (ha : a ∈ list' ∨ a ∈ pc'.popped) : a ∈ list ∨ a ∈ pc.popped := by
  rcases cleanerStep_cases h with ⟨rfl, hpopped, -⟩ | ⟨b, rfl, hpopped, hpopped', -⟩ | ⟨b, rfl, hpopped, hpopped', -⟩
  · rwa [hpopped] at ha
  · rw [hpopped', List.mem_singleton] at ha
    exact Or.inl (List.mem_cons.2 ha.symm)
  · rw [hpopped'] at ha
    exact Or.inl (ha.resolve_right List.not_mem_nil)

theorem kinds_step {o : ThreadOp} (h : BlocksInv start x) (hs : blockStep x o = some y) : Kinds y := by
  have hlater := later_step hs
  have hmapping : ∀ a, a ∈ x.mappingList ∨ a ∈ x.mappingCleaner.popped → (y.block a).publicIP ≠ none := by
    intro a ha
    rw [hlater.block (listed_lt h.placed (or_assoc.1 (Or.inl ha)))]
    exact h.kinds.mapping a ha
  have hban : ∀ a, a ∈ x.bannedList ∨ a ∈ x.banCleaner.popped → (y.block a).publicIP = none := by
    intro a ha
    have hlt : a < x.heap.length :=
      ha.elim (h.placed.issued_of_mem (k := Place.bannedList)) (h.placed.issued_of_mem (k := Place.banCleaner))
    rw [hlater.block hlt]
    exact h.kinds.ban a ha
  cases blockEffect hs with
  | insertMapping had =>
    refine ⟨?_, hban⟩
    rintro a (ha | ha)
    · rcases List.mem_append.1 ha with ha | ha
      · exact hmapping a (Or.inl ha)
      · -- the handler has set it
        have hmade : HandlerOk x _ := had ▸ h.handlers _
        obtain rfl := List.mem_singleton.1 ha
        have hset : (x.block a).publicIP = some _ := congrArg Block.publicIP hmade
        exact fun hnone => Option.some_ne_none _ (hset.symm.trans hnone)
    · exact hmapping a (Or.inr ha)
  | insertBan had =>
    refine ⟨hmapping, ?_⟩
    rintro a (ha | ha)
    · rcases List.mem_append.1 ha with ha | ha
      · exact hban a (Or.inl ha)
      · have hmade : HandlerOk x _ := had ▸ h.handlers _
        obtain rfl := List.mem_singleton.1 ha
        exact congrArg Block.publicIP hmade
    · exact hban a (Or.inr ha)
  | cleanMapping clean => exact ⟨fun a ha => hmapping a (held_cleanerStep clean ha), hban⟩
  | cleanBan clean => exact ⟨hmapping, fun a ha => hban a (held_cleanerStep clean ha)⟩
  | _ => exact ⟨hmapping, hban⟩

theorem freeing_subset {α : Type} (pc : CleanerPc α) : pc.freeing ⊆ pc.popped := by
  intro a ha
  unfold CleanerPc.freeing at ha
  split at ha
  · exact ha
  · cases ha

/-- a Mapping of a list is freed by the cleaner of its kind -/
theorem freed_step {o : ThreadOp} (h : BlocksInv start x) (hs : blockStep x o = some y) :
    y.freed = y.gone.flatMap (frees y) := by
  have hlater := later_step hs
  have hold : x.gone.flatMap (frees y) = x.freed := by
    rw [h.freed]
    refine List.flatMap_congr fun a ha => ?_
    rw [frees, frees, hlater.block (listed_lt h.placed (Or.inr (Or.inr ha)))]
  have hkeep (hfreed : y.freed = x.freed) : y.freed = y.gone.flatMap (frees y) := by
    rw [Blocks.gone, hfreed]
    exact hold.symm
  cases blockEffect hs with
  | cleanMapping clean =>
    have hkind : ∀ a ∈ x.mappingCleaner.freeing, frees x a = expiredMapFrees.map (Prod.mk a) := fun a ha => by
      rw [frees, if_neg (h.kinds.mapping a (Or.inr (freeing_subset _ ha)))]
    rw [Blocks.gone, gone_mapping, List.flatMap_append]
    exact congrArg₂ _ hold.symm (List.flatMap_congr fun a ha => (hkind a ha).symm)
  | cleanBan clean =>
    have hkind : ∀ a ∈ x.banCleaner.freeing, frees x a = expiredBanFrees.map (Prod.mk a) := fun a ha => by
      rw [frees, if_pos (h.kinds.ban a (Or.inr (freeing_subset _ ha)))]
    rw [Blocks.gone, gone_ban, List.flatMap_append]
    exact congrArg₂ _ hold.symm (List.flatMap_congr fun a ha => (hkind a ha).symm)
  | _ => exact hkeep rfl

theorem blocksInv_step (x : Blocks) (o : ThreadOp) (y : Blocks) (h : BlocksInv start x) (hs : blockStep x o = some y) :
    BlocksInv start y := by
  obtain ⟨hmapping, hban, hdue⟩ := sounds_step h hs
  exact ⟨placed_step h.placed hs, kinds_step h hs, freed_step h hs, hmapping, hban, hdue, stampedBlocks_step h hs,
    handlers_step h hs⟩

theorem blocksInv_start (now : ℤ) (fw : Firewall) : BlocksInv now (startBlocks now fw) :=
  ⟨placed_start now fw, ⟨by simp [startBlocks, CleanerPc.popped], by simp [startBlocks, CleanerPc.popped]⟩, rfl,
    trivial, trivial, fun _ ha => absurd ha List.not_mem_nil, ⟨le_rfl, fun _ ha => absurd ha (Nat.not_lt_zero _)⟩,
    fun _ => trivial⟩

end Invariant

/-! ## Reading a match -/

/-- the address that a handler has from findElement, and the clock reading of its search -/
def BlockPc.found : BlockPc → Option (ℤ × ℕ)
  | .addTest _ t0 found => some (t0, found)
  | .addCompare _ t0 found _ => some (t0, found)
  | .addCopy _ t0 found _ => some (t0, found)
  | _ => none

/-- a handler comes to its match when the grace period has gone by since its search -/
def Late (x : Blocks) (o : ThreadOp) (a : ℕ) : Prop :=
  ∃ i rand t0, o = .handle i rand ∧ (x.handler i).found = some (t0, a) ∧ t0 + gracePeriodSeconds ≤ x.now

section Reading

variable {start : ℤ} {x y : Blocks} {a : ℕ}

theorem HandlerOk.found {pc : BlockPc} (h : HandlerOk x pc) {t0 : ℤ} (hf : pc.found = some (t0, a)) :
    t0 ≤ x.now ∧ Found x t0 a := by
  cases pc with
  | addTest isp t found | addCompare isp t found _ | addCopy isp t found _ =>
    obtain ⟨rfl, rfl⟩ := Prod.mk.inj (Option.some.inj hf)
    exact h
  | _ => cases hf

/-- what the search of `t0` finds is not due before the grace period has gone by -/
theorem grace_of_due {m : Mapping} {t0 now : ℤ} (hwindow : InWindow (t0 - expirationTimeSeconds) m)
    (hdue : getExpirationTimeMap m.time ≤ now) (ht0 : t0 ≤ now) (hstart : start ≤ m.time)
    (hclock : now ≤ start + 2 ^ 31) : t0 + gracePeriodSeconds ≤ now := by
  unfold getExpirationTimeMap at hdue
  unfold InWindow at hwindow
  by_contra hlate
  rw [wrap32_of_lt] at hwindow <;>
    simp only [expirationTimeSeconds, gracePeriodSeconds] at * <;> omega

/-- a cleaner reads what is in its list or what it holds -/
theorem mem_reads {strings : List Part} {list : List ℕ} {pc : CleanerPc ℕ} {q : ℕ × Part}
    (hq : q ∈ pc.reads strings list) : (q.1 ∈ list ∨ q.1 ∈ pc.popped) ∧ q.2 ∈ Part.struct :: strings := by
  cases pc with
  | headSeen =>
    obtain ⟨ha, hpart⟩ := List.mem_product.1 hq
    exact ⟨Or.inl (List.mem_of_head? (Option.mem_toList.1 ha)), List.mem_cons.2 (Or.inl (List.mem_singleton.1 hpart))⟩
  | acting waited popped calls =>
    obtain ⟨ha, hpart⟩ := List.mem_product.1 hq
    cases popped with
    | none => cases ha
    | some popped => exact ⟨Or.inr ha, hpart⟩
  | _ => cases hq

theorem gone_of_freed (h : BlocksInv start x) {q : ℕ × Part} (hq : q ∈ x.freed) : q.1 ∈ x.gone := by
  rw [h.freed] at hq
  obtain ⟨a, ha, hq⟩ := List.mem_flatMap.1 hq
  obtain ⟨part, -, rfl⟩ := List.mem_map.1 hq
  exact ha

/-- handleExpiredBan passes a pointer to free that nothing has set -/
structure UnsetFree (x : Blocks) (o : ThreadOp) (q : ℕ × Part) : Prop where
  op : o = .cleanBan
  freeing : q.1 ∈ x.banCleaner.freeing
  part : q.2 = .publicIP
  unset : (x.block q.1).publicIP = none

/-- **Who reads what.** -/
theorem accesses_late (h : BlocksInv start x) (hclock : x.now ≤ start + 2 ^ 31) {o : ThreadOp} {q : ℕ × Part}
    (hq : q ∈ accesses x o) : UnsetFree x o q ∨ (x.Allocated q ∧ (q ∈ x.freed → Late x o q.1)) := by
  have hheld {k : Place} (hk : q.1 ∈ x.holding k) (hne : k ≠ .freed)
      (hset : q.2 = .publicIP → (x.block q.1).publicIP ≠ none) :
      x.Allocated q ∧ (q ∈ x.freed → Late x o q.1) :=
    ⟨⟨h.placed.issued_of_mem hk, hset⟩, fun hfreed =>
      absurd (gone_of_freed h hfreed) (h.placed.elsewhere (l := Place.freed) hk hne)⟩
  have hlisted (hk : q.1 ∈ x.mappingList) : x.Allocated q ∧ (q ∈ x.freed → Late x o q.1) :=
    hheld (k := Place.mappingList) hk (by simp) fun _ => h.kinds.mapping _ (Or.inl hk)
  have hmatch {i rand : ℕ} {t0 : ℤ} (ho : o = .handle i rand) (hf : (x.handler i).found = some (t0, q.1)) :
      x.Allocated q ∧ (q ∈ x.freed → Late x o q.1) := by
    obtain ⟨ht0, hfound⟩ := (h.handlers i).found hf
    have hlt := listed_lt h.placed hfound.listed
    exact ⟨⟨hlt, fun _ => hfound.set⟩, fun hfreed => ⟨i, rand, t0, ho, hf,
      grace_of_due hfound.window (h.due q.1 (gone_of_freed h hfreed)) ht0 (h.stamped.2 q.1 hlt) hclock⟩⟩
  cases o with
  | handle i rand =>
    right
    simp only [accesses] at hq
    split at hq
    · exact hlisted (scanned_subset _ _ _ (List.mem_product.1 hq).1)
    · exact hlisted (scanned_subset _ _ _ (List.mem_product.1 hq).1)
    · cases hpc : x.handler i with
      | addCompare isp t0 found timeNow | addCopy isp t0 found timeNow =>
        rw [hpc] at hq
        have hfound : q.1 = found := List.mem_singleton.1 (List.mem_product.1 hq).1
        exact hmatch rfl (by rw [hpc, hfound]; rfl)
      | _ =>
        rw [hpc] at hq
        cases hq
  | cleanMapping =>
    right
    have hwhere : q.1 ∈ x.mappingList ∨ q.1 ∈ x.mappingCleaner.popped :=
      (List.mem_append.1 hq).elim (fun hq => (mem_reads hq).1)
        fun hq => Or.inr (freeing_subset _ (List.mem_product.1 hq).1)
    rcases hwhere with hk | hk
    · exact hlisted hk
    · exact hheld (k := Place.mappingCleaner) hk (by simp) fun _ => h.kinds.mapping _ (Or.inr hk)
  | cleanBan =>
    rcases List.mem_append.1 hq with hq | hq
    · -- it does not look at the address
      right
      obtain ⟨hwhere, hpart⟩ := mem_reads hq
      have hset (hpub : q.2 = .publicIP) : (x.block q.1).publicIP ≠ none := by
        rw [hpub] at hpart
        simp at hpart
      rcases hwhere with hk | hk
      · exact hheld (k := Place.bannedList) hk (by simp) hset
      · exact hheld (k := Place.banCleaner) hk (by simp) hset
    · have hfreeing := (List.mem_product.1 hq).1
      have hk := freeing_subset _ hfreeing
      by_cases hpart : q.2 = .publicIP
      · exact Or.inl ⟨rfl, hfreeing, hpart, h.kinds.ban _ (Or.inr hk)⟩
      · exact Or.inr (hheld (k := Place.banCleaner) hk (by simp) fun hpub => absurd hpub hpart)
  | _ => cases hq

end Reading

/-- a host has been given a lease; another of its network asks as the lease is over, and finds it -/
def foundRun : List ThreadOp :=
  .recvAdd 0 clientA [] :: List.replicate 12 (.handle 0 0) ++
    [.wait 5, .recvAdd 1 clientA [], .handle 1 0, .handle 1 0]

-- it comes to its match when the grace period has just gone by, and so has the cleaner
example : (run blockStep (startBlocks 0 bootServer.fw)
      (foundRun ++ .wait 2 :: List.replicate 13 .cleanMapping ++ [.handle 1 0])).map
    (fun x => (x.now, (x.handler 1).found, accesses x (.handle 1 0), x.freed)) =
  some (7, some (5, 0), [(0, .struct)], [(0, .ispPrefix), (0, .publicIP), (0, .struct)]) := rfl

/-! ## Losing a match -/

/-- the mapping cleaner and its list elsewhere -/
def Blocks.atCleaner (x : Blocks) (c : CleanerPc ℕ × List ℕ × Firewall) (freed : List (ℕ × Part)) : Blocks :=
  { x with mappingCleaner := c.1, mappingList := c.2.1, fw := c.2.2, freed := freed }

theorem blockStep_atCleaner (x : Blocks) (c : CleanerPc ℕ × List ℕ × Firewall) (freed : List (ℕ × Part)) :
    blockStep (x.atCleaner c freed) .cleanMapping =
      (cleanerAlone x.time (fun a => expiredMapCalls (x.mapping a)) x.now c ()).map
        fun d => x.atCleaner d (freed ++ c.1.freeing ×ˢ expiredMapFrees) := rfl

/-- what the mapping cleaner does alone -/
theorem run_atCleaner {x : Blocks} {c c' : CleanerPc ℕ × List ℕ × Firewall} {ops : List Unit}
    (h : run (cleanerAlone x.time (fun a => expiredMapCalls (x.mapping a)) x.now) c ops = some c')
    (freed : List (ℕ × Part)) :
    ∃ freed', run blockStep (x.atCleaner c freed) (List.replicate ops.length .cleanMapping) =
      some (x.atCleaner c' freed') := by
  induction ops generalizing c freed with
  | nil =>
    obtain rfl := Option.some.inj h
    exact ⟨freed, rfl⟩
  | cons u ops ih =>
    rw [run_cons, Option.bind_eq_some_iff] at h
    obtain ⟨d, hd, hrest⟩ := h
    obtain ⟨freed', hrun⟩ := ih hrest (freed ++ c.1.freeing ×ˢ expiredMapFrees)
    refine ⟨freed', ?_⟩
    rw [List.length_cons, List.replicate_succ, run_cons, blockStep_atCleaner, hd]
    exact hrun

end NetSec.NatServer
